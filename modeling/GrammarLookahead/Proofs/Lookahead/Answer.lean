import GrammarLookahead.Lookahead.Candidates
import GrammarLookahead.Proofs.Role

namespace GrammarLookahead

/-- What lookahead can be asked for. -/
inductive Inquiry
  /-- The openings of an element. -/
  | openings (id : ElementId)
  /-- The openings of elements in a row, up to the first one that may not be skipped. -/
  | sequence (ids : List ElementId)
  /-- The openings of all of the elements. -/
  | branches (ids : List ElementId)
  /-- The openings of those of the elements that may be repeated. -/
  | repetitions (ids : List ElementId)
  /-- What comes next in the group around an element, the element itself included. -/
  | ahead (id : ElementId)
  /-- The continuations of the position that a stack describes. -/
  | continuations (stack : List ElementId)
deriving DecidableEq

/-- The elements that may come again after `id`, the second being its member of the group around. -/
def repeated (id member : ElementId) : List ElementId :=
  if member = id then [id] else [id, member]

/-- All of the elements may be skipped. -/
def Context.Skips (g : Grammar) (o : Context) (ids : List ElementId) : Prop :=
  ∀ id ∈ ids, (o.seen g id).isOptional = true

instance (g : Grammar) (o : Context) (ids : List ElementId) : Decidable (o.Skips g ids) :=
  inferInstanceAs (Decidable (∀ id ∈ ids, (o.seen g id).isOptional = true))

/-- The openings of the element are those that the inquiry is for. -/
inductive Grammar.Unwraps (g : Grammar) : ElementId → Inquiry → Prop
  | sequence {id members} : g.Plays id (.sequence members) → Unwraps g id (.sequence members)
  | choice {id ids} : g.Plays id (.choice ids) → Unwraps g id (.branches ids)
  | action {id} : g.Plays id .action → Unwraps g id (.continuations [id])
  | call {id rule body?} : g.Plays id (.call rule body?) → Unwraps g id (.branches body?.toList)

/-- The inquiry, in the first context, finds the list and leaves the second context. There is no
bound on the depth of the search. -/
inductive Finds (g : Grammar) : Inquiry → Context → List ElementId → Context → Prop
  | leaf {id o} : g.Plays id .leaf → Finds g (.openings id) o [id] o
  | closed {id o} : g.Plays id .closed → Finds g (.openings id) o [] o
  | unwrap {id i o l p} : g.Unwraps id i → Finds g i o l p →
      Finds g (.openings id) o l (p.handOn g (g.written id) l)
  | sequenceNil {o} : Finds g (.sequence []) o [] o
  | sequenceStop {id rest o l p} : Finds g (.openings id) o l p →
      (p.seen g id).isOptional = false → Finds g (.sequence (id :: rest)) o l p
  | sequenceStep {id rest o l p l' q} : Finds g (.openings id) o l p →
      (p.seen g id).isOptional = true → Finds g (.sequence rest) p l' q →
      Finds g (.sequence (id :: rest)) o (l ++ l') q
  | branchesNil {o} : Finds g (.branches []) o [] o
  | branchesCons {id rest o l p l' q} : Finds g (.openings id) o l p →
      Finds g (.branches rest) p l' q → Finds g (.branches (id :: rest)) o (l ++ l') q
  | repetitionsNil {o} : Finds g (.repetitions []) o [] o
  | repetitionsOnce {id rest o l p} : g.Issued id → (o.seen g id).isRepeatable = false →
      Finds g (.repetitions rest) o l p → Finds g (.repetitions (id :: rest)) o l p
  | repetitionsAgain {id rest o l p l' q} : (o.seen g id).isRepeatable = true →
      Finds g (.openings id) o l p → Finds g (.repetitions rest) p l' q →
      Finds g (.repetitions (id :: rest)) o (l ++ l') q
  | outermost {id member o l p} : g.groupAround id = .ok (member, none) →
      Finds g (.repetitions (repeated id member)) o l p → Finds g (.ahead id) o l p
  | follow {id member group after o l p l' q} : g.groupAround id = .ok (member, some group) →
      g.membersAfter group member = .ok after →
      Finds g (.repetitions (repeated id member)) o l p → Finds g (.sequence after) p l' q →
      Finds g (.ahead id) o (l ++ l') q
  | bottom {o} : Finds g (.continuations []) o [] o
  | pop {id calls member o l p l' q} : g.groupAround id = .ok (member, none) →
      Finds g (.ahead id) o l p → Finds g (.continuations calls) p l' q →
      Finds g (.continuations (id :: calls)) o (l ++ l') q
  | settle {id calls member group o l p} : g.groupAround id = .ok (member, some group) →
      Finds g (.ahead id) o l p → ¬ p.Skips g l → Finds g (.continuations (id :: calls)) o l p
  | climb {id calls member group o l p l' q} : g.groupAround id = .ok (member, some group) →
      Finds g (.ahead id) o l p → p.Skips g l → Finds g (.continuations [group]) p l' q →
      ¬ q.Skips g (l ++ l') → Finds g (.continuations (id :: calls)) o (l ++ l') q
  | leave {id calls member group o l p l' q l'' r} : g.groupAround id = .ok (member, some group) →
      Finds g (.ahead id) o l p → p.Skips g l → Finds g (.continuations [group]) p l' q →
      q.Skips g (l ++ l') → Finds g (.continuations calls) q l'' r →
      Finds g (.continuations (id :: calls)) o (l ++ l' ++ l'') r

variable {g : Grammar}

namespace Grammar.Unwraps

variable {id : ElementId} {i i' : Inquiry}

theorem unique (h : g.Unwraps id i) (h' : g.Unwraps id i') : i = i' := by
  cases h with
  | sequence hp => cases h' with
    | sequence hp' => cases hp.unique hp'; rfl
    | choice hp' | action hp' | call hp' => cases hp.unique hp'
  | choice hp => cases h' with
    | choice hp' => cases hp.unique hp'; rfl
    | sequence hp' | action hp' | call hp' => cases hp.unique hp'
  | action hp => cases h' with
    | action => rfl
    | sequence hp' | choice hp' | call hp' => cases hp.unique hp'
  | call hp => cases h' with
    | call hp' => cases hp.unique hp'; rfl
    | sequence hp' | choice hp' | action hp' => cases hp.unique hp'

theorem issued (h : g.Unwraps id i) : g.Issued id := by
  cases h with
  | sequence hp | choice hp | action hp | call hp => exact hp.issued

theorem not_leaf (h : g.Unwraps id i) : ¬ g.Plays id .leaf := by
  intro hp'
  cases h with
  | sequence hp | choice hp | action hp | call hp => cases hp.unique hp'

theorem not_closed (h : g.Unwraps id i) : ¬ g.Plays id .closed := by
  intro hp'
  cases h with
  | sequence hp | choice hp | action hp | call hp => cases hp.unique hp'

end Grammar.Unwraps

theorem Grammar.Issued.unwraps {id : ElementId} (h : g.Issued id) :
    g.Plays id .leaf ∨ g.Plays id .closed ∨ ∃ i, g.Unwraps id i := by
  obtain ⟨e, he⟩ := h
  have hp := Grammar.plays_of he
  cases hr : g.roleOf e.kind <;> rw [hr] at hp
  case leaf => exact .inl hp
  case closed => exact .inr (.inl hp)
  case sequence => exact .inr (.inr ⟨_, .sequence hp⟩)
  case choice => exact .inr (.inr ⟨_, .choice hp⟩)
  case action => exact .inr (.inr ⟨_, .action hp⟩)
  case call => exact .inr (.inr ⟨_, .call hp⟩)

/-- Only elements of the grammar have a mark. -/
def Context.Inside (g : Grammar) (o : Context) : Prop :=
  ∀ id, o.Marks id → g.Issued id

theorem Context.inside_empty : Context.Inside g ∅ :=
  fun id hid => absurd hid (Context.not_marks_empty id)

namespace Finds

variable {i : Inquiry} {id : ElementId} {o p : Context} {l : List ElementId}

theorem issued (h : Finds g (.openings id) o l p) : g.Issued id := by
  cases h with
  | leaf hp | closed hp => exact hp.issued
  | unwrap hu => exact hu.issued

theorem exists_around {calls : List ElementId} (h : Finds g (.continuations (id :: calls)) o l p) :
    ∃ member group?, g.groupAround id = .ok (member, group?) := by
  cases h with
  | pop hga | settle hga | climb hga | leave hga => exact ⟨_, _, hga⟩

theorem leaves (h : Finds g i o l p) : ∀ id ∈ l, g.Plays id .leaf := by
  have happend : ∀ {l l' : List ElementId}, (∀ id ∈ l, g.Plays id .leaf) →
      (∀ id ∈ l', g.Plays id .leaf) → ∀ id ∈ l ++ l', g.Plays id .leaf := fun hl hl' id hid =>
    (List.mem_append.mp hid).elim (hl id) (hl' id)
  have hnil : ∀ id ∈ ([] : List ElementId), g.Plays id .leaf := fun id hid =>
    absurd hid List.not_mem_nil
  induction h with
  | leaf hp => exact fun id hid => List.mem_singleton.mp hid ▸ hp
  | closed | sequenceNil | branchesNil | repetitionsNil | bottom => exact hnil
  | unwrap _ _ ih => exact ih
  | sequenceStop _ _ ih => exact ih
  | sequenceStep _ _ _ ih ih' => exact happend ih ih'
  | branchesCons _ _ ih ih' => exact happend ih ih'
  | repetitionsOnce _ _ _ ih => exact ih
  | repetitionsAgain _ _ _ ih ih' => exact happend ih ih'
  | outermost _ _ ih => exact ih
  | follow _ _ _ _ ih ih' => exact happend ih ih'
  | pop _ _ _ ih ih' => exact happend ih ih'
  | settle _ _ _ ih => exact ih
  | climb _ _ _ _ _ ih ih' => exact happend ih ih'
  | leave _ _ _ _ _ _ ih ih' ih'' => exact happend (happend ih ih') ih''

/-- What holds of contexts and is kept when a fragment hands its cardinality on to leaves is kept by
every inquiry. -/
theorem preserves {P : Context → Prop} (hP : ∀ {o around l}, P o →
      (∀ id ∈ l, g.Plays id .leaf) → P (o.handOn g around l))
    (h : Finds g i o l p) (ho : P o) : P p := by
  induction h with
  | leaf | closed | sequenceNil | branchesNil | repetitionsNil | bottom => exact ho
  | unwrap _ h ih => exact hP (ih ho) h.leaves
  | sequenceStop _ _ ih => exact ih ho
  | sequenceStep _ _ _ ih ih' => exact ih' (ih ho)
  | branchesCons _ _ ih ih' => exact ih' (ih ho)
  | repetitionsOnce _ _ _ ih => exact ih ho
  | repetitionsAgain _ _ _ ih ih' => exact ih' (ih ho)
  | outermost _ _ ih => exact ih ho
  | follow _ _ _ _ ih ih' => exact ih' (ih ho)
  | pop _ _ _ ih ih' => exact ih' (ih ho)
  | settle _ _ _ ih => exact ih ho
  | climb _ _ _ _ _ ih ih' => exact ih' (ih ho)
  | leave _ _ _ _ _ _ ih ih' ih'' => exact ih'' (ih' (ih ho))

theorem faithful (h : Finds g i o l p) (ho : o.Faithful g) : p.Faithful g :=
  h.preserves (fun ho _ => ho.handOn _ _) ho

theorem inside (h : Finds g i o l p) (ho : o.Inside g) : p.Inside g := by
  refine h.preserves (P := Context.Inside g) (fun ho hl id hid => ?_) ho
  rcases Context.marks_handOn.mp hid with hid | ⟨-, hid⟩
  · exact ho id hid
  · exact (hl id hid).issued

theorem unique {l' : List ElementId} {p' : Context} (h : Finds g i o l p)
    (h' : Finds g i o l' p') : l = l' ∧ p = p' := by
  induction h generalizing l' p' with
  | leaf hp => cases h' with
    | leaf => exact ⟨rfl, rfl⟩
    | closed hp' => cases hp.unique hp'
    | unwrap hu => exact absurd hp hu.not_leaf
  | closed hp => cases h' with
    | closed => exact ⟨rfl, rfl⟩
    | leaf hp' => cases hp.unique hp'
    | unwrap hu => exact absurd hp hu.not_closed
  | unwrap hu _ ih => cases h' with
    | leaf hp => exact absurd hp hu.not_leaf
    | closed hp => exact absurd hp hu.not_closed
    | unwrap hu' h' =>
      cases hu.unique hu'
      obtain ⟨rfl, rfl⟩ := ih h'
      exact ⟨rfl, rfl⟩
  | sequenceNil => cases h' with
    | sequenceNil => exact ⟨rfl, rfl⟩
  | sequenceStop _ ho ih => cases h' with
    | sequenceStop h' => exact ih h'
    | sequenceStep h' ho' =>
      obtain ⟨-, rfl⟩ := ih h'
      simp [ho] at ho'
  | sequenceStep _ ho _ ih ih' => cases h' with
    | sequenceStop h' ho' =>
      obtain ⟨-, rfl⟩ := ih h'
      simp [ho] at ho'
    | sequenceStep h' _ hr' =>
      obtain ⟨rfl, rfl⟩ := ih h'
      obtain ⟨rfl, rfl⟩ := ih' hr'
      exact ⟨rfl, rfl⟩
  | branchesNil => cases h' with
    | branchesNil => exact ⟨rfl, rfl⟩
  | branchesCons _ _ ih ih' => cases h' with
    | branchesCons h' hr' =>
      obtain ⟨rfl, rfl⟩ := ih h'
      obtain ⟨rfl, rfl⟩ := ih' hr'
      exact ⟨rfl, rfl⟩
  | repetitionsNil => cases h' with
    | repetitionsNil => exact ⟨rfl, rfl⟩
  | repetitionsOnce _ hr _ ih => cases h' with
    | repetitionsOnce _ _ h' => exact ih h'
    | repetitionsAgain hr' => simp [hr] at hr'
  | repetitionsAgain hr _ _ ih ih' => cases h' with
    | repetitionsOnce _ hr' => simp [hr] at hr'
    | repetitionsAgain _ h' h'' =>
      obtain ⟨rfl, rfl⟩ := ih h'
      obtain ⟨rfl, rfl⟩ := ih' h''
      exact ⟨rfl, rfl⟩
  | outermost hga _ ih => cases h' with
    | outermost hga' h' =>
      cases hga.symm.trans hga'
      exact ih h'
    | follow hga' => cases hga.symm.trans hga'
  | follow hga haft _ _ ih ih' => cases h' with
    | outermost hga' => cases hga.symm.trans hga'
    | follow hga' haft' h' h'' =>
      cases hga.symm.trans hga'
      cases haft.symm.trans haft'
      obtain ⟨rfl, rfl⟩ := ih h'
      obtain ⟨rfl, rfl⟩ := ih' h''
      exact ⟨rfl, rfl⟩
  | bottom => cases h' with
    | bottom => exact ⟨rfl, rfl⟩
  | pop hga _ _ ih ih' => cases h' with
    | pop _ h' h'' =>
      obtain ⟨rfl, rfl⟩ := ih h'
      obtain ⟨rfl, rfl⟩ := ih' h''
      exact ⟨rfl, rfl⟩
    | settle hga' | climb hga' | leave hga' => cases hga.symm.trans hga'
  | settle hga _ hs ih => cases h' with
    | pop hga' => cases hga.symm.trans hga'
    | settle _ h' => exact ih h'
    | climb _ h' hs' | leave _ h' hs' =>
      obtain ⟨rfl, rfl⟩ := ih h'
      exact absurd hs' hs
  | climb hga _ hs _ hl ih ih' => cases h' with
    | pop hga' => cases hga.symm.trans hga'
    | settle _ h' hs' =>
      obtain ⟨rfl, rfl⟩ := ih h'
      exact absurd hs hs'
    | climb hga' h' _ h'' =>
      cases hga.symm.trans hga'
      obtain ⟨rfl, rfl⟩ := ih h'
      obtain ⟨rfl, rfl⟩ := ih' h''
      exact ⟨rfl, rfl⟩
    | leave hga' h' _ h'' hl' =>
      cases hga.symm.trans hga'
      obtain ⟨rfl, rfl⟩ := ih h'
      obtain ⟨rfl, rfl⟩ := ih' h''
      exact absurd hl' hl
  | leave hga _ hs _ hl _ ih ih' ih'' => cases h' with
    | pop hga' => cases hga.symm.trans hga'
    | settle _ h' hs' =>
      obtain ⟨rfl, rfl⟩ := ih h'
      exact absurd hs hs'
    | climb hga' h' _ h'' hl' =>
      cases hga.symm.trans hga'
      obtain ⟨rfl, rfl⟩ := ih h'
      obtain ⟨rfl, rfl⟩ := ih' h''
      exact absurd hl hl'
    | leave hga' h' _ h'' _ h''' =>
      cases hga.symm.trans hga'
      obtain ⟨rfl, rfl⟩ := ih h'
      obtain ⟨rfl, rfl⟩ := ih' h''
      obtain ⟨rfl, rfl⟩ := ih'' h'''
      exact ⟨rfl, rfl⟩

end Finds

end GrammarLookahead
