import GrammarLookahead.Proofs.Lookahead.Lending
import GrammarLookahead.Proofs.Lookahead.Opens

namespace GrammarLookahead

open Relation

namespace Grammar

/-- The search comes to no call of a parser rule. -/
def CallFree (g : Grammar) (s : ElementId × Context) : Prop :=
  ∀ t, ReflTransGen g.Opens s t → ∀ rule body?, ¬ g.Plays t.1 (.call rule body?)

/-- Nothing comes behind the element in its rule: it may not be repeated, and it stands in no group,
or at the end of a group that is such an element again. -/
inductive ClosesRule (g : Grammar) : ElementId → Prop
  | outermost {id member} : g.groupAround id = .ok (member, none) →
      (g.written id).isRepeatable = false → (g.written member).isRepeatable = false →
      ClosesRule g id
  | last {id member group} : g.groupAround id = .ok (member, some group) →
      g.membersAfter group member = .ok [] → (g.written id).isRepeatable = false →
      (g.written member).isRepeatable = false → ClosesRule g group → ClosesRule g id

/-- What is ahead of the element is in the group around it, as nothing comes behind that group. -/
def StaysInGroup (g : Grammar) (id : ElementId) : Prop :=
  ∀ member group, g.groupAround id = .ok (member, some group) → g.ClosesRule group

/-- No action that the search comes to has a call of a parser rule ahead of it, unless nothing comes
behind its group. -/
def Calm (g : Grammar) (s : ElementId × Context) : Prop :=
  ∀ t, ReflTransGen g.Opens s t → g.Plays t.1 .action → g.CallFree t ∨ g.StaysInGroup t.1

variable {g : Grammar} {s t : ElementId × Context}

theorem CallFree.opens (h : g.CallFree s) (ho : g.Opens s t) : g.CallFree t :=
  fun u hr => h u (.head ho hr)

theorem Calm.opens (h : g.Calm s) (ho : g.Opens s t) : g.Calm t :=
  fun u hr => h u (.head ho hr)

theorem CallFree.calm (h : g.CallFree s) : g.Calm s :=
  fun _ hr _ => .inl fun u hr' => h u (hr.trans hr')

theorem Undoubled.of_append {before l l' : List ElementId}
    (h : g.Undoubled (before ++ (l ++ l'))) :
    g.Undoubled (before ++ l) ∧ g.Undoubled ((before ++ l) ++ l') := by
  rw [← List.append_assoc] at h
  refine ⟨fun id hd => h id ⟨hd.1, hd.2.trans ?_⟩, h⟩
  exact (List.sublist_append_left _ _).count_le id

theorem Undoubled.not_mem {before l : List ElementId} (h : g.Undoubled (before ++ l))
    {id : ElementId} (hid : id ∈ l) (hw : (g.written id).isOptional = false) : id ∉ before := by
  intro hbefore
  have hpos := List.count_pos_iff.mpr hbefore
  have hpos' := List.count_pos_iff.mpr hid
  refine h id ⟨hw, ?_⟩
  rw [List.count_append]
  omega

end Grammar

/-- The inquiry comes only to searches with the property. -/
def Inquiry.All (g : Grammar) (P : ElementId × Context → Prop) (i : Inquiry) (o : Context) : Prop :=
  ∀ f q, Comes g i o f q → P (f, q)

variable {g : Grammar} {i : Inquiry} {id member group : ElementId} {o p : Context}
  {l before after rest : List ElementId}

namespace Inquiry.All

variable {P : ElementId × Context → Prop}

theorem unwrap (hP : ∀ {s t}, P s → g.Opens s t → P t) (h : All g P (.openings id) o)
    (hu : g.Unwraps id i) : i.All g P o :=
  fun _ _ hc => hP (h id o .openings) ⟨i, hu, hc⟩

theorem sequence_head (h : All g P (.sequence (id :: rest)) o) : All g P (.openings id) o := by
  intro f q hc
  cases hc
  exact h id o .sequenceHead

theorem sequence_tail (h : All g P (.sequence (id :: rest)) o) (hf : Finds g (.openings id) o l p)
    (ho : (p.seen g id).isOptional = true) : All g P (.sequence rest) p :=
  fun f q hc => h f q (.sequenceTail hf ho hc)

theorem branches_head (h : All g P (.branches (id :: rest)) o) : All g P (.openings id) o := by
  intro f q hc
  cases hc
  exact h id o .branchesHead

theorem branches_tail (h : All g P (.branches (id :: rest)) o)
    (hf : Finds g (.openings id) o l p) : All g P (.branches rest) p :=
  fun f q hc => h f q (.branchesTail hf hc)

end Inquiry.All

namespace Finds

/-- In a row that is read up to its first mandatory element, marks make no difference. -/
theorem isOptional_seen_of_undoubled (h : Finds g (.openings id) o l p) (ho : o.Earned g before)
    (hund : g.Undoubled (before ++ l)) :
    (p.seen g id).isOptional = (g.written id).isOptional := by
  have hp := ho.after h
  cases hw : (g.written id).isOptional with
  | true => exact (hp.faithful.isOptional_seen id).mpr (.inl hw)
  | false =>
    by_contra hopt
    rw [Bool.not_eq_false] at hopt
    rcases h.isOptional_seen hp.faithful hp.leaf hopt with hw' | ⟨hmark, rfl⟩
    · simp [hw] at hw'
    · exact hund.not_mem (List.mem_singleton_self id) hw (ho.found id hmark)

theorem repetitions_nil {ids : List ElementId} (h : Finds g (.repetitions ids) o l p)
    (hr : ∀ id ∈ ids, (o.seen g id).isRepeatable = false) : l = [] ∧ p = o := by
  induction ids with
  | nil =>
    cases h
    exact ⟨rfl, rfl⟩
  | cons id rest ih =>
    have hid := hr id List.mem_cons_self
    cases h with
    | repetitionsOnce _ _ h => exact ih h fun other ho => hr other (List.mem_cons_of_mem _ ho)
    | repetitionsAgain hrep => simp [hid] at hrep

theorem repeated_nil (h : Finds g (.repetitions (repeated id member)) o l p)
    (hr : (o.seen g id).isRepeatable = false) (hrm : (o.seen g member).isRepeatable = false) :
    l = [] ∧ p = o := by
  refine h.repetitions_nil ?_
  unfold repeated
  split_ifs <;> simp [hr, hrm]

theorem continuations_nil (h : Finds g (.continuations [id]) o l p)
    (hga : g.groupAround id = .ok (member, none)) (hr : (o.seen g id).isRepeatable = false)
    (hrm : (o.seen g member).isRepeatable = false) : l = [] ∧ p = o := by
  cases h with
  | pop _ hahead hcalls =>
    cases hcalls
    cases hahead with
    | outermost hga' hrep =>
      cases hga.symm.trans hga'
      obtain ⟨rfl, rfl⟩ := hrep.repeated_nil hr hrm
      exact ⟨rfl, rfl⟩
    | follow hga' => cases hga.symm.trans hga'
  | settle hga' | climb hga' | leave hga' => cases hga.symm.trans hga'

/-- In a group there is ahead of such an element what comes behind it, and what is ahead of the
group if all of that may be skipped. -/
theorem ahead_cases (h : Finds g (.continuations [id]) o l p)
    (hga : g.groupAround id = .ok (member, some group))
    (hafter : g.membersAfter group member = .ok after)
    (hr : (o.seen g id).isRepeatable = false) (hrm : (o.seen g member).isRepeatable = false)
    {P : ElementId × Context → Prop} (hP : Inquiry.All g P (.continuations [id]) o) :
    ∃ l' p', Finds g (.sequence after) o l' p' ∧ Inquiry.All g P (.sequence after) o ∧
      (¬ p'.Skips g l' ∧ l = l' ∧ p = p' ∨
        p'.Skips g l' ∧ ∃ l'', Finds g (.continuations [group]) p' l'' p ∧
          Inquiry.All g P (.continuations [group]) p' ∧ l = l' ++ l'') := by
  have hsequence : ∀ {l p}, Finds g (.ahead id) o l p →
      Finds g (.sequence after) o l p ∧ Inquiry.All g P (.sequence after) o := by
    intro l p h
    cases h with
    | outermost hga' => cases hga.symm.trans hga'
    | follow hga' hafter' hrep hseq =>
      cases hga.symm.trans hga'
      cases hafter.symm.trans hafter'
      obtain ⟨rfl, rfl⟩ := hrep.repeated_nil hr hrm
      exact ⟨hseq, fun f q hc => hP f q (.top (.follow hga hafter hrep hc))⟩
  cases h with
  | pop hga' => cases hga.symm.trans hga'
  | settle _ h hs =>
    obtain ⟨hseq, hall⟩ := hsequence h
    exact ⟨_, _, hseq, hall, .inl ⟨hs, rfl, rfl⟩⟩
  | climb hga' h hs h' =>
    cases hga.symm.trans hga'
    obtain ⟨hseq, hall⟩ := hsequence h
    exact ⟨_, _, hseq, hall, .inr ⟨hs, _, h', fun f q hc => hP f q (.climb hga h hs hc), rfl⟩⟩
  | leave hga' h hs h' _ hcalls =>
    cases hga.symm.trans hga'
    cases hcalls
    obtain ⟨hseq, hall⟩ := hsequence h
    exact ⟨_, _, hseq, hall,
      .inr ⟨hs, _, h', fun f q hc => hP f q (.climb hga h hs hc), List.append_nil _⟩⟩

theorem nil_of_closesRule (h : Finds g (.continuations [id]) o l p) (hclose : g.ClosesRule id)
    (ho : o.Faithful g) : l = [] ∧ p = o := by
  induction hclose generalizing l p with
  | outermost hga hr hrm =>
    rw [← ho.isRepeatable_seen] at hr hrm
    exact h.continuations_nil hga hr hrm
  | last hga hafter hr hrm _ ih =>
    rw [← ho.isRepeatable_seen] at hr hrm
    obtain ⟨l', p', hnil, -, hcases⟩ :=
      h.ahead_cases hga hafter hr hrm (P := fun _ => True) fun _ _ _ => trivial
    cases hnil
    rcases hcases with ⟨-, rfl, rfl⟩ | ⟨-, l'', hgroup, -, rfl⟩
    · exact ⟨rfl, rfl⟩
    · exact ih hgroup

end Finds

end GrammarLookahead
