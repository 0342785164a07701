import Mathlib.Data.Fintype.Card
import Mathlib.Data.Set.Finite.Basic
import Mathlib.Logic.Relation

namespace GrammarLookahead

open Relation

variable {α : Type} {r : α → α → Prop} {a b : α}

theorem acc_of_reach (h : Acc (fun b a => r a b) a) (hr : ReflTransGen r a b) :
    Acc (fun b a => r a b) b := by
  induction hr with
  | refl => exact h
  | tail _ hs ih => exact ih.inv hs

/-- No cycle is reached from where all chains end. -/
theorem not_cycle_of_acc (h : Acc (fun b a => r a b) a) (hr : ReflTransGen r a b) :
    ¬ TransGen r b b := by
  have hb := acc_of_reach h hr
  clear h hr
  induction hb with
  | intro b _ ih =>
    intro hc
    obtain ⟨c, hs, hr⟩ := TransGen.head'_iff.mp hc
    exact ih c hs (TransGen.tail' hr hs)

/-- Among finitely many states all chains end if none comes back to where it was. -/
theorem acc_of_not_cycle (hfin : {b | ReflTransGen r a b}.Finite)
    (h : ∀ b, ReflTransGen r a b → ¬ TransGen r b b) : Acc (fun b a => r a b) a := by
  let back : {b | ReflTransGen r a b} → {b | ReflTransGen r a b} → Prop :=
    fun c b => TransGen r b.1 c.1
  have : Finite {b | ReflTransGen r a b} := hfin
  have : IsTrans _ back := ⟨fun _ _ _ hcb hba => hba.trans hcb⟩
  have : Std.Irrefl back := ⟨fun b => h b.1 b.2⟩
  have hwf : WellFounded back := Finite.wellFounded_of_trans_of_irrefl back
  suffices ∀ b : {b | ReflTransGen r a b}, Acc (fun b a => r a b) b.1 from this ⟨a, .refl⟩
  intro b
  induction b using hwf.induction with
  | _ b ih => exact .intro _ fun c hc => ih ⟨c, b.2.tail hc⟩ (.single hc)

end GrammarLookahead
