import GrammarLookahead.Proofs.Chain
import GrammarLookahead.Proofs.Lookahead.Answer

namespace GrammarLookahead

open Relation

/-- The inquiry has an answer. -/
def Inquiry.Answered (g : Grammar) (i : Inquiry) (o : Context) : Prop :=
  ∃ l p, Finds g i o l p

/-- The first inquiry makes the second one on its way, each in the context that goes with it. -/
inductive Asks (g : Grammar) : Inquiry × Context → Inquiry × Context → Prop
  | unwrap {id i o} : g.Unwraps id i → Asks g (.openings id, o) (i, o)
  | sequenceHead {id rest o} : Asks g (.sequence (id :: rest), o) (.openings id, o)
  | sequenceTail {id rest o l p} : Finds g (.openings id) o l p →
      (p.seen g id).isOptional = true → Asks g (.sequence (id :: rest), o) (.sequence rest, p)
  | branchesHead {id rest o} : Asks g (.branches (id :: rest), o) (.openings id, o)
  | branchesTail {id rest o l p} : Finds g (.openings id) o l p →
      Asks g (.branches (id :: rest), o) (.branches rest, p)
  | repetitionsHead {id rest o} : (o.seen g id).isRepeatable = true →
      Asks g (.repetitions (id :: rest), o) (.openings id, o)
  | repetitionsOnce {id rest o} : (o.seen g id).isRepeatable = false →
      Asks g (.repetitions (id :: rest), o) (.repetitions rest, o)
  | repetitionsTail {id rest o l p} : (o.seen g id).isRepeatable = true →
      Finds g (.openings id) o l p → Asks g (.repetitions (id :: rest), o) (.repetitions rest, p)
  | again {id member group? o} : g.groupAround id = .ok (member, group?) →
      Asks g (.ahead id, o) (.repetitions (repeated id member), o)
  | follow {id member group after o l p} : g.groupAround id = .ok (member, some group) →
      g.membersAfter group member = .ok after →
      Finds g (.repetitions (repeated id member)) o l p → Asks g (.ahead id, o) (.sequence after, p)
  | top {id calls o} : Asks g (.continuations (id :: calls), o) (.ahead id, o)
  | pop {id calls member o l p} : g.groupAround id = .ok (member, none) →
      Finds g (.ahead id) o l p →
      Asks g (.continuations (id :: calls), o) (.continuations calls, p)
  | climb {id calls member group o l p} : g.groupAround id = .ok (member, some group) →
      Finds g (.ahead id) o l p → p.Skips g l →
      Asks g (.continuations (id :: calls), o) (.continuations [group], p)
  | leave {id calls member group o l p l' q} : g.groupAround id = .ok (member, some group) →
      Finds g (.ahead id) o l p → p.Skips g l → Finds g (.continuations [group]) p l' q →
      q.Skips g (l ++ l') → Asks g (.continuations (id :: calls), o) (.continuations calls, q)

/-- The levels of depth that an inquiry takes for itself. -/
def Inquiry.levels : Inquiry → Nat
  | .openings _ | .continuations _ => 1
  | _ => 0

/-- The inquiry has an answer, and the depth suffices for it: for its own levels, and below these for
the inquiries that it makes on its way. -/
inductive Enough (g : Grammar) : Nat → Inquiry × Context → Prop
  | intro {depth below s} : s.1.Answered g s.2 → below + s.1.levels ≤ depth →
      (∀ t, Asks g s t → Enough g below t) → Enough g depth s

variable {g : Grammar} {i : Inquiry} {id : ElementId} {rest calls : List ElementId} {o p : Context}
  {l : List ElementId} {depth depth' : Nat} {s t : Inquiry × Context}

namespace Asks

theorem preserves {P : Context → Prop} (hP : ∀ {i o l p}, Finds g i o l p → P o → P p)
    (h : Asks g s t) (hs : P s.2) : P t.2 := by
  cases h with
  | unwrap | sequenceHead | branchesHead | repetitionsHead | repetitionsOnce | again | top => exact hs
  | sequenceTail h | branchesTail h | repetitionsTail _ h => exact hP h hs
  | follow _ _ h | pop _ h | climb _ h => exact hP h hs
  | leave _ h _ h' => exact hP h' (hP h hs)

theorem cases_sequence (ha : Asks g (.sequence (id :: rest), o) t)
    (h : Finds g (.openings id) o l p) :
    t = (.openings id, o) ∨ (p.seen g id).isOptional = true ∧ t = (.sequence rest, p) := by
  cases ha with
  | sequenceHead => exact .inl rfl
  | sequenceTail h' ho =>
    obtain ⟨-, rfl⟩ := h.unique h'
    exact .inr ⟨ho, rfl⟩

theorem cases_branches (ha : Asks g (.branches (id :: rest), o) t)
    (h : Finds g (.openings id) o l p) : t = (.openings id, o) ∨ t = (.branches rest, p) := by
  cases ha with
  | branchesHead => exact .inl rfl
  | branchesTail h' =>
    obtain ⟨-, rfl⟩ := h.unique h'
    exact .inr rfl

theorem cases_repetitions (ha : Asks g (.repetitions (id :: rest), o) t) :
    (o.seen g id).isRepeatable = false ∧ t = (.repetitions rest, o) ∨
      (o.seen g id).isRepeatable = true ∧ (t = (.openings id, o) ∨
        ∃ l p, Finds g (.openings id) o l p ∧ t = (.repetitions rest, p)) := by
  cases ha with
  | repetitionsHead hr => exact .inr ⟨hr, .inl rfl⟩
  | repetitionsOnce hr => exact .inl ⟨hr, rfl⟩
  | repetitionsTail hr h => exact .inr ⟨hr, .inr ⟨_, _, h, rfl⟩⟩

theorem cases_ahead {member : ElementId} {group? : Option ElementId} (ha : Asks g (.ahead id, o) t)
    (hga : g.groupAround id = .ok (member, group?))
    (h : Finds g (.repetitions (repeated id member)) o l p) :
    t = (.repetitions (repeated id member), o) ∨ ∃ group after, group? = some group ∧
      g.membersAfter group member = .ok after ∧ t = (.sequence after, p) := by
  cases ha with
  | again hga' =>
    cases hga.symm.trans hga'
    exact .inl rfl
  | follow hga' haft h' =>
    cases hga.symm.trans hga'
    obtain ⟨-, rfl⟩ := h.unique h'
    exact .inr ⟨_, _, rfl, haft, rfl⟩

theorem cases_continuations {member : ElementId} {group? : Option ElementId}
    (ha : Asks g (.continuations (id :: calls), o) t)
    (hga : g.groupAround id = .ok (member, group?)) (h : Finds g (.ahead id) o l p) :
    t = (.ahead id, o) ∨ group? = none ∧ t = (.continuations calls, p) ∨
      ∃ group, group? = some group ∧ p.Skips g l ∧ (t = (.continuations [group], p) ∨
        ∃ l' q, Finds g (.continuations [group]) p l' q ∧ q.Skips g (l ++ l') ∧
          t = (.continuations calls, q)) := by
  cases ha with
  | top => exact .inl rfl
  | pop hga' h' =>
    cases hga.symm.trans hga'
    obtain ⟨-, rfl⟩ := h.unique h'
    exact .inr (.inl ⟨rfl, rfl⟩)
  | climb hga' h' hs =>
    cases hga.symm.trans hga'
    obtain ⟨rfl, rfl⟩ := h.unique h'
    exact .inr (.inr ⟨_, rfl, hs, .inl rfl⟩)
  | leave hga' h' hs hgroup hs' =>
    cases hga.symm.trans hga'
    obtain ⟨rfl, rfl⟩ := h.unique h'
    exact .inr (.inr ⟨_, rfl, hs, .inr ⟨_, _, hgroup, hs', rfl⟩⟩)

end Asks

namespace Enough

theorem mono (h : Enough g depth s) (hle : depth ≤ depth') : Enough g depth' s := by
  obtain ⟨ha, hbelow, h⟩ := h
  exact .intro ha (hbelow.trans hle) h

theorem answered (h : Enough g depth s) : s.1.Answered g s.2 := by
  obtain ⟨ha, -, -⟩ := h
  exact ha

/-- No chain of inquiries goes on for ever if some depth suffices. -/
theorem acc (h : Enough g depth s) : Acc (fun t s => Asks g s t) s := by
  induction h with
  | intro _ _ _ ih => exact .intro _ ih

/-- Some depth suffices if one does for each of the inquiries that are made, of which there are
finitely many. -/
theorem exists_of_asks (ha : s.1.Answered g s.2) (made : List (Inquiry × Context))
    (hmade : ∀ t ∈ made, ∃ depth, Enough g depth t) (hasks : ∀ t, Asks g s t → t ∈ made) :
    ∃ depth, Enough g depth s := by
  have hcommon : ∃ depth, ∀ t ∈ made, Enough g depth t := by
    clear hasks
    induction made with
    | nil => exact ⟨0, fun t ht => absurd ht List.not_mem_nil⟩
    | cons t made ih =>
      obtain ⟨⟨depth, ht⟩, hrest⟩ := List.forall_mem_cons.mp hmade
      obtain ⟨depth', hrest⟩ := ih hrest
      refine ⟨max depth depth', List.forall_mem_cons.mpr ⟨ht.mono (Nat.le_max_left _ _), ?_⟩⟩
      exact fun t ht => (hrest t ht).mono (Nat.le_max_right _ _)
  obtain ⟨depth, hdepth⟩ := hcommon
  exact ⟨depth + s.1.levels, .intro ha (Nat.le_refl _) fun t ht => hdepth t (hasks t ht)⟩

end Enough

/-- Some depth suffices for an inquiry with an answer. -/
theorem Finds.enough (h : Finds g i o l p) : ∃ depth, Enough g depth (i, o) := by
  have hanswer : Inquiry.Answered g i o := ⟨l, p, h⟩
  induction h with
  | leaf hp =>
    refine Enough.exists_of_asks hanswer [] (by simp) fun t ha => ?_
    cases ha with
    | unwrap hu => exact absurd hp hu.not_leaf
  | closed hp =>
    refine Enough.exists_of_asks hanswer [] (by simp) fun t ha => ?_
    cases ha with
    | unwrap hu => exact absurd hp hu.not_closed
  | @unwrap id i o l p hu h ih =>
    refine Enough.exists_of_asks hanswer [(i, o)] (by simpa using ih ⟨_, _, h⟩) fun t ha => ?_
    cases ha with
    | unwrap hu' => exact hu.unique hu' ▸ List.mem_cons_self
  | sequenceNil | branchesNil | repetitionsNil | bottom =>
    exact Enough.exists_of_asks hanswer [] (by simp) fun t ha => nomatch ha
  | @sequenceStop id rest o l p h ho ih =>
    refine Enough.exists_of_asks hanswer [(.openings id, o)] (by simpa using ih ⟨_, _, h⟩)
      fun t ha => ?_
    rcases ha.cases_sequence h with rfl | ⟨ho', -⟩
    · simp
    · simp [ho] at ho'
  | @sequenceStep id rest o l p l' q h _ hr ih ih' =>
    have hid := ih ⟨_, _, h⟩
    have hrest := ih' ⟨_, _, hr⟩
    refine Enough.exists_of_asks hanswer [(.openings id, o), (.sequence rest, p)]
      (by simpa using ⟨hid, hrest⟩) fun t ha => ?_
    rcases ha.cases_sequence h with rfl | ⟨-, rfl⟩ <;> simp
  | @branchesCons id rest o l p l' q h hr ih ih' =>
    have hid := ih ⟨_, _, h⟩
    have hrest := ih' ⟨_, _, hr⟩
    refine Enough.exists_of_asks hanswer [(.openings id, o), (.branches rest, p)]
      (by simpa using ⟨hid, hrest⟩) fun t ha => ?_
    rcases ha.cases_branches h with rfl | rfl <;> simp
  | @repetitionsOnce id rest o l p _ hrep h ih =>
    refine Enough.exists_of_asks hanswer [(.repetitions rest, o)] (by simpa using ih ⟨_, _, h⟩)
      fun t ha => ?_
    rcases ha.cases_repetitions with ⟨-, rfl⟩ | ⟨hrep', -⟩
    · simp
    · simp [hrep] at hrep'
  | @repetitionsAgain id rest o l p l' q hrep h hr ih ih' =>
    have hid := ih ⟨_, _, h⟩
    have hrest := ih' ⟨_, _, hr⟩
    refine Enough.exists_of_asks hanswer [(.openings id, o), (.repetitions rest, p)]
      (by simpa using ⟨hid, hrest⟩) fun t ha => ?_
    rcases ha.cases_repetitions with ⟨hrep', -⟩ | ⟨-, rfl | ⟨_, _, hf, rfl⟩⟩
    · simp [hrep] at hrep'
    · simp
    · simp [h.unique hf]
  | @outermost id member o l p hga h ih =>
    refine Enough.exists_of_asks hanswer [(.repetitions (repeated id member), o)]
      (by simpa using ih ⟨_, _, h⟩) fun t ha => ?_
    rcases ha.cases_ahead hga h with rfl | ⟨_, _, hgroup, -⟩
    · simp
    · cases hgroup
  | @follow id member group after o l p l' q hga haft h hr ih ih' =>
    have hagain := ih ⟨_, _, h⟩
    have hafter := ih' ⟨_, _, hr⟩
    refine Enough.exists_of_asks hanswer [(.repetitions (repeated id member), o), (.sequence after, p)]
      (by simpa using ⟨hagain, hafter⟩) fun t ha => ?_
    rcases ha.cases_ahead hga h with rfl | ⟨_, _, hgroup, haft', rfl⟩
    · simp
    · cases hgroup
      cases haft.symm.trans haft'
      simp
  | @pop id calls member o l p l' q hga h hr ih ih' =>
    have hahead := ih ⟨_, _, h⟩
    have hcalls := ih' ⟨_, _, hr⟩
    refine Enough.exists_of_asks hanswer [(.ahead id, o), (.continuations calls, p)]
      (by simpa using ⟨hahead, hcalls⟩) fun t ha => ?_
    rcases ha.cases_continuations hga h with rfl | ⟨-, rfl⟩ | ⟨_, hgroup, -⟩
    · simp
    · simp
    · cases hgroup
  | @settle id calls member group o l p hga h hs ih =>
    refine Enough.exists_of_asks hanswer [(.ahead id, o)] (by simpa using ih ⟨_, _, h⟩)
      fun t ha => ?_
    rcases ha.cases_continuations hga h with rfl | ⟨hnone, -⟩ | ⟨_, _, hs', -⟩
    · simp
    · cases hnone
    · exact absurd hs' hs
  | @climb id calls member group o l p l' q hga h _ hr hs ih ih' =>
    have hahead := ih ⟨_, _, h⟩
    have hgroup := ih' ⟨_, _, hr⟩
    refine Enough.exists_of_asks hanswer [(.ahead id, o), (.continuations [group], p)]
      (by simpa using ⟨hahead, hgroup⟩) fun t ha => ?_
    rcases ha.cases_continuations hga h with rfl | ⟨hnone, -⟩ | ⟨_, hsome, -, rfl | hleave⟩
    · simp
    · cases hnone
    · cases hsome
      simp
    · cases hsome
      obtain ⟨_, _, hf, hs', -⟩ := hleave
      obtain ⟨rfl, rfl⟩ := hr.unique hf
      exact absurd hs' hs
  | @leave id calls member group o l p l' q l'' r hga h _ hr _ hc ih ih' ih'' =>
    have hahead := ih ⟨_, _, h⟩
    have hgroup := ih' ⟨_, _, hr⟩
    have hcalls := ih'' ⟨_, _, hc⟩
    refine Enough.exists_of_asks hanswer
      [(.ahead id, o), (.continuations [group], p), (.continuations calls, q)]
      (by simpa using ⟨hahead, hgroup, hcalls⟩) fun t ha => ?_
    rcases ha.cases_continuations hga h with rfl | ⟨hnone, -⟩ | ⟨_, hsome, -, rfl | hleave⟩
    · simp
    · cases hnone
    · cases hsome
      simp
    · cases hsome
      obtain ⟨_, _, hf, -, rfl⟩ := hleave
      simp [hr.unique hf]

end GrammarLookahead
