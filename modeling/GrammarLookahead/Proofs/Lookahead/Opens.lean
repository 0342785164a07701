import GrammarLookahead.Proofs.Lookahead.Asks

namespace GrammarLookahead

open Relation

/-- The inquiry, made in the first context, asks for the openings of the element in the second. -/
inductive Comes (g : Grammar) : Inquiry → Context → ElementId → Context → Prop
  | openings {id o} : Comes g (.openings id) o id o
  | sequenceHead {id rest o} : Comes g (.sequence (id :: rest)) o id o
  | sequenceTail {id rest o l p f q} : Finds g (.openings id) o l p →
      (p.seen g id).isOptional = true → Comes g (.sequence rest) p f q →
      Comes g (.sequence (id :: rest)) o f q
  | branchesHead {id rest o} : Comes g (.branches (id :: rest)) o id o
  | branchesTail {id rest o l p f q} : Finds g (.openings id) o l p →
      Comes g (.branches rest) p f q → Comes g (.branches (id :: rest)) o f q
  | repetitionsHead {id rest o} : (o.seen g id).isRepeatable = true →
      Comes g (.repetitions (id :: rest)) o id o
  | repetitionsOnce {id rest o f q} : (o.seen g id).isRepeatable = false →
      Comes g (.repetitions rest) o f q → Comes g (.repetitions (id :: rest)) o f q
  | repetitionsTail {id rest o l p f q} : (o.seen g id).isRepeatable = true →
      Finds g (.openings id) o l p → Comes g (.repetitions rest) p f q →
      Comes g (.repetitions (id :: rest)) o f q
  | again {id member group? o f q} : g.groupAround id = .ok (member, group?) →
      Comes g (.repetitions (repeated id member)) o f q → Comes g (.ahead id) o f q
  | follow {id member group after o l p f q} : g.groupAround id = .ok (member, some group) →
      g.membersAfter group member = .ok after →
      Finds g (.repetitions (repeated id member)) o l p → Comes g (.sequence after) p f q →
      Comes g (.ahead id) o f q
  | top {id calls o f q} : Comes g (.ahead id) o f q → Comes g (.continuations (id :: calls)) o f q
  | pop {id calls member o l p f q} : g.groupAround id = .ok (member, none) →
      Finds g (.ahead id) o l p → Comes g (.continuations calls) p f q →
      Comes g (.continuations (id :: calls)) o f q
  | climb {id calls member group o l p f q} : g.groupAround id = .ok (member, some group) →
      Finds g (.ahead id) o l p → p.Skips g l → Comes g (.continuations [group]) p f q →
      Comes g (.continuations (id :: calls)) o f q
  | leave {id calls member group o l p l' q f r} : g.groupAround id = .ok (member, some group) →
      Finds g (.ahead id) o l p → p.Skips g l → Finds g (.continuations [group]) p l' q →
      q.Skips g (l ++ l') → Comes g (.continuations calls) q f r →
      Comes g (.continuations (id :: calls)) o f r

/-- The search for the openings of the first element, in its context, asks for those of the second
element, in the context that goes with it. -/
def Grammar.Opens (g : Grammar) (s t : ElementId × Context) : Prop :=
  ∃ i, g.Unwraps s.1 i ∧ Comes g i s.2 t.1 t.2

variable {g : Grammar} {i : Inquiry} {o p q : Context} {id f : ElementId} {l : List ElementId}

theorem Comes.asks (h : Comes g i o f q) : ReflTransGen (Asks g) (i, o) (.openings f, q) := by
  induction h with
  | openings => exact .refl
  | sequenceHead => exact .single .sequenceHead
  | sequenceTail h ho _ ih => exact .head (.sequenceTail h ho) ih
  | branchesHead => exact .single .branchesHead
  | branchesTail h _ ih => exact .head (.branchesTail h) ih
  | repetitionsHead hr => exact .single (.repetitionsHead hr)
  | repetitionsOnce hr _ ih => exact .head (.repetitionsOnce hr) ih
  | repetitionsTail hr h _ ih => exact .head (.repetitionsTail hr h) ih
  | again hga _ ih => exact .head (.again hga) ih
  | follow hga haft h _ ih => exact .head (.follow hga haft h) ih
  | top _ ih => exact .head .top ih
  | pop hga h _ ih => exact .head (.pop hga h) ih
  | climb hga h hs _ ih => exact .head (.climb hga h hs) ih
  | leave hga h hs h' hs' _ ih => exact .head (.leave hga h hs h' hs') ih

theorem Comes.preserves {P : Context → Prop}
    (hP : ∀ {i o l p}, Finds g i o l p → P o → P p) (h : Comes g i o f q) (ho : P o) : P q := by
  have hkeep : ∀ t, ReflTransGen (Asks g) (i, o) t → P t.2 := by
    intro t hr
    induction hr with
    | refl => exact ho
    | tail _ ha ih => exact ha.preserves hP ih
  exact hkeep _ h.asks

/-- A search that ends: no chain of steps from it goes on for ever. -/
def Grammar.Ends (g : Grammar) : ElementId × Context → Prop :=
  Acc fun t s => g.Opens s t

theorem Grammar.ends_of_acc {s : Inquiry × Context} (h : Acc (fun t s => Asks g s t) s)
    (hr : ReflTransGen (Asks g) s (.openings f, q)) : g.Ends (f, q) := by
  induction h generalizing f q with
  | intro s _ ih =>
    refine .intro _ fun t ho => ?_
    obtain ⟨i, hu, hc⟩ := ho
    obtain ⟨s', ha, hr'⟩ := TransGen.head'_iff.mp ((TransGen.tail' hr (.unwrap hu)).trans_left hc.asks)
    exact ih s' ha hr'

/-- All searches end that an inquiry with an answer comes to. -/
theorem Finds.ends (h : Finds g i o l p) (hc : Comes g i o f q) : g.Ends (f, q) := by
  obtain ⟨depth, henough⟩ := h.enough
  exact Grammar.ends_of_acc henough.acc hc.asks

def Inquiry.elements : Inquiry → List ElementId
  | .openings id | .ahead id => [id]
  | .sequence ids | .branches ids | .repetitions ids | .continuations ids => ids

theorem Grammar.Forest.inRule_around (hg : g.Forest) (h : g.InRule id) {member : ElementId}
    {group? : Option ElementId} (hga : g.groupAround id = .ok (member, group?)) :
    g.InRule member ∧ ∀ group, group? = some group → g.InRule group ∧ id.index < group.index ∧
      ∃ after, g.membersAfter group member = .ok after ∧ ∀ other ∈ after, g.InRule other := by
  obtain ⟨_, _, hn⟩ := hg.nearestGroup_of_inRule h
  cases hga.symm.trans hn.answer
  have hmember := hg.inRule_enclosing h hn.encloses
  refine ⟨hmember, ?_⟩
  intro group heq
  subst heq
  obtain ⟨e, before, after, he, hk⟩ := hn.split group rfl
  have hholds : ∀ other ∈ before ++ member :: after, g.Holds group other := fun other ho =>
    ⟨e, he, by simpa [Element.children, hk, ElementKind.children] using ho⟩
  have hgroup := hg.inRule_outer hmember (hholds member (by simp))
  have hlt := hg.index_lt hmember (hholds member (by simp))
  have hle := hg.index_le_of_encloses hn.encloses
  exact ⟨hgroup, by omega, after, hg.membersAfter_eq he hk,
    fun other ho => Grammar.Forest.inRule_inner hgroup (hholds other (by simp [ho]))⟩

theorem inRule_repeated (hg : g.Forest) (h : g.InRule id) {member : ElementId}
    {group? : Option ElementId} (hga : g.groupAround id = .ok (member, group?)) :
    ∀ other ∈ repeated id member, g.InRule other := by
  have hmember := (hg.inRule_around h hga).1
  unfold repeated
  split_ifs <;> simp [h, hmember]

theorem Grammar.Unwraps.inRule (hu : g.Unwraps id i) (h : g.InRule id) :
    ∀ other ∈ i.elements, g.InRule other := by
  intro other ho
  cases hu with
  | sequence hp => exact Grammar.Forest.inRule_inner h (hp.holds_sequence ho)
  | choice hp => exact Grammar.Forest.inRule_inner h (hp.holds_choice ho)
  | action => exact List.mem_singleton.mp ho ▸ h
  | call hp => exact Grammar.Forest.inRule_body (hp.isBody_iff.mpr (Option.mem_toList.mp ho))

theorem Comes.inRule (hg : g.Forest) (h : Comes g i o f q)
    (hi : ∀ other ∈ i.elements, g.InRule other) : g.InRule f := by
  have htail : ∀ {id rest}, (∀ other ∈ id :: rest, g.InRule other) →
      ∀ other ∈ rest, g.InRule other := fun h other ho => h other (List.mem_cons_of_mem _ ho)
  induction h with
  | openings | sequenceHead | branchesHead | repetitionsHead => exact hi _ List.mem_cons_self
  | sequenceTail _ _ _ ih => exact ih (htail hi)
  | branchesTail _ _ ih => exact ih (htail hi)
  | repetitionsOnce _ _ ih => exact ih (htail hi)
  | repetitionsTail _ _ _ ih => exact ih (htail hi)
  | again hga _ ih => exact ih (inRule_repeated hg (hi _ List.mem_cons_self) hga)
  | follow hga haft _ _ ih =>
    obtain ⟨-, hgroup⟩ := hg.inRule_around (hi _ List.mem_cons_self) hga
    obtain ⟨-, -, after, haft', hafter⟩ := hgroup _ rfl
    cases haft.symm.trans haft'
    exact ih hafter
  | top _ ih => exact ih fun other ho => hi other (List.mem_singleton.mp ho ▸ List.mem_cons_self)
  | pop _ _ _ ih => exact ih (htail hi)
  | climb hga _ _ _ ih =>
    obtain ⟨-, hgroup⟩ := hg.inRule_around (hi _ List.mem_cons_self) hga
    exact ih fun other ho => List.mem_singleton.mp ho ▸ (hgroup _ rfl).1
  | leave _ _ _ _ _ _ ih => exact ih (htail hi)

theorem Grammar.Opens.inRule (hg : g.Forest) {s t : ElementId × Context} (h : g.Opens s t)
    (hs : g.InRule s.1) : g.InRule t.1 := by
  obtain ⟨i, hu, hc⟩ := h
  exact hc.inRule hg (hu.inRule hs)

namespace Inquiry.Answered

theorem sequence {ids : List ElementId} (h : ∀ f q, Comes g (.sequence ids) o f q →
    Answered g (.openings f) q) : Answered g (.sequence ids) o := by
  induction ids generalizing o with
  | nil => exact ⟨_, _, .sequenceNil⟩
  | cons id rest ih =>
    obtain ⟨l, p, hid⟩ := h id o .sequenceHead
    cases ho : (p.seen g id).isOptional with
    | false => exact ⟨_, _, .sequenceStop hid ho⟩
    | true =>
      obtain ⟨l', p', hrest⟩ := ih fun f q hc => h f q (.sequenceTail hid ho hc)
      exact ⟨_, _, .sequenceStep hid ho hrest⟩

theorem branches {ids : List ElementId} (h : ∀ f q, Comes g (.branches ids) o f q →
    Answered g (.openings f) q) : Answered g (.branches ids) o := by
  induction ids generalizing o with
  | nil => exact ⟨_, _, .branchesNil⟩
  | cons id rest ih =>
    obtain ⟨l, p, hid⟩ := h id o .branchesHead
    obtain ⟨l', p', hrest⟩ := ih fun f q hc => h f q (.branchesTail hid hc)
    exact ⟨_, _, .branchesCons hid hrest⟩

theorem repetitions {ids : List ElementId} (hi : ∀ id ∈ ids, g.Issued id)
    (h : ∀ f q, Comes g (.repetitions ids) o f q → Answered g (.openings f) q) :
    Answered g (.repetitions ids) o := by
  induction ids generalizing o with
  | nil => exact ⟨_, _, .repetitionsNil⟩
  | cons id rest ih =>
    have hrest := fun other ho => hi other (List.mem_cons_of_mem id ho)
    cases hr : (o.seen g id).isRepeatable with
    | false =>
      obtain ⟨l, p, hl⟩ := ih hrest fun f q hc => h f q (.repetitionsOnce hr hc)
      exact ⟨_, _, .repetitionsOnce (hi id List.mem_cons_self) hr hl⟩
    | true =>
      obtain ⟨l, p, hid⟩ := h id o (.repetitionsHead hr)
      obtain ⟨l', p', hl⟩ := ih hrest fun f q hc => h f q (.repetitionsTail hr hid hc)
      exact ⟨_, _, .repetitionsAgain hr hid hl⟩

theorem ahead (hg : g.Forest) (hid : g.InRule id) (h : ∀ f q, Comes g (.ahead id) o f q →
    Answered g (.openings f) q) : Answered g (.ahead id) o := by
  obtain ⟨member, group?, hn⟩ := hg.nearestGroup_of_inRule hid
  have hissued : ∀ other ∈ repeated id member, g.Issued other := fun other ho =>
    hg.isSome_of_inRule (inRule_repeated hg hid hn.answer other ho)
  obtain ⟨l, p, hl⟩ := repetitions hissued fun f q hc => h f q (.again hn.answer hc)
  cases group? with
  | none => exact ⟨_, _, .outermost hn.answer hl⟩
  | some group =>
    obtain ⟨-, -, after, hafter, -⟩ := (hg.inRule_around hid hn.answer).2 group rfl
    obtain ⟨l', p', hl'⟩ := sequence fun f q hc => h f q (.follow hn.answer hafter hl hc)
    exact ⟨_, _, .follow hn.answer hafter hl hl'⟩

theorem continuations (hg : g.Forest) (hid : g.InRule id)
    (h : ∀ f q, Comes g (.continuations [id]) o f q → Answered g (.openings f) q) :
    Answered g (.continuations [id]) o := by
  induction hn : g.elements.size - id.index using Nat.strongRecOn generalizing id o with
  | _ n ih =>
    obtain ⟨l, p, hl⟩ := ahead hg hid fun f q hc => h f q (.top hc)
    obtain ⟨member, group?, hnear⟩ := hg.nearestGroup_of_inRule hid
    have hga := hnear.answer
    cases group? with
    | none => exact ⟨_, _, .pop hga hl .bottom⟩
    | some group =>
      obtain ⟨hgroup, hlt, -⟩ := (hg.inRule_around hid hga).2 group rfl
      by_cases hs : p.Skips g l
      · obtain ⟨e, he⟩ := hg.isSome_of_inRule hgroup
        have hsize : group.index < g.elements.size := (Array.getElem?_eq_some_iff.mp he).1
        obtain ⟨l', p', hl'⟩ := ih _ (by omega) hgroup
          (fun f q hc => h f q (.climb hga hl hs hc)) rfl
        by_cases hs' : p'.Skips g (l ++ l')
        · exact ⟨_, _, .leave hga hl hs hl' hs' .bottom⟩
        · exact ⟨_, _, .climb hga hl hs hl' hs'⟩
      · exact ⟨_, _, .settle hga hl hs⟩

end Inquiry.Answered

theorem Grammar.Ends.answered (hg : g.Forest) {s : ElementId × Context} (h : g.Ends s)
    (hs : g.InRule s.1) : Inquiry.Answered g (.openings s.1) s.2 := by
  induction h with
  | intro s _ ih =>
    obtain hp | hp | ⟨i, hu⟩ := Grammar.Issued.unwraps (hg.isSome_of_inRule hs)
    · exact ⟨_, _, .leaf hp⟩
    · exact ⟨_, _, .closed hp⟩
    · have hcomes : ∀ f q, Comes g i s.2 f q → Inquiry.Answered g (.openings f) q := fun f q hc =>
        ih (f, q) ⟨i, hu, hc⟩ (hc.inRule hg (hu.inRule hs))
      have hi : Inquiry.Answered g i s.2 := by
        cases hu with
        | sequence => exact .sequence hcomes
        | choice | call => exact .branches hcomes
        | action => exact .continuations hg hs hcomes
      obtain ⟨l, p, hl⟩ := hi
      exact ⟨_, _, .unwrap hu hl⟩

/-- The search for the openings of an element of a rule has an answer exactly if it ends. -/
theorem Grammar.ends_iff_answered (hg : g.Forest) (hid : g.InRule id) :
    g.Ends (id, o) ↔ Inquiry.Answered g (.openings id) o :=
  ⟨fun h => h.answered hg hid, fun ⟨_, _, h⟩ => h.ends .openings⟩

end GrammarLookahead
