import GrammarLookahead.Proofs.Lookahead.Lending
import GrammarLookahead.Proofs.Lookahead.Skipping

namespace GrammarLookahead

/-- Contexts that searches reach have marks on leaves only. -/
structure Context.Sound (g : Grammar) (o : Context) : Prop where
  faithful : o.Faithful g
  leaf : ∀ k, o.Marks k → g.Plays k .leaf

/-- A search, by the context that it starts in, what it finds and the context that it leaves. -/
structure Run where
  start : Context
  found : List ElementId
  stop : Context

/-- The second search follows the first one, and goes on where the first one stops at a leaf that
has a mark for the second one alone. -/
inductive Alongside (g : Grammar) : Run → Run → Prop
  | leaf {id o o'} : g.Plays id .leaf → Alongside g ⟨o, [id], o⟩ ⟨o', [id], o'⟩
  | none {o o'} : Alongside g ⟨o, [], o⟩ ⟨o', [], o'⟩
  | unwrap {id o l p o' l' p'} : ¬ g.Plays id .leaf →
      Finds g (.openings id) o' l' (p'.handOn g (g.written id) l') →
      Alongside g ⟨o, l, p⟩ ⟨o', l', p'⟩ →
      Alongside g ⟨o, l, p.handOn g (g.written id) l⟩ ⟨o', l', p'.handOn g (g.written id) l'⟩
  | append {i j o l p m q o' l' p' m' q'} : Finds g i o' l' p' → Finds g j p' m' q' →
      Alongside g ⟨o, l, p⟩ ⟨o', l', p'⟩ → Alongside g ⟨p, m, q⟩ ⟨p', m', q'⟩ →
      Alongside g ⟨o, l ++ m, q⟩ ⟨o', l' ++ m', q'⟩
  | past {id group before rest o o' l' p'} : g.Plays id .leaf →
      (g.written id).isOptional = false → ¬ o.Marks id → o'.Marks id →
      g.Plays group (.sequence (before ++ id :: rest)) → Finds g (.sequence rest) o' l' p' →
      Alongside g ⟨o, [id], o⟩ ⟨o', id :: l', p'⟩

/-- Inquiries that do not look behind an action; a sequence is the rest of a row. -/
def Inquiry.InRow (g : Grammar) : Inquiry → Prop
  | .sequence ids => ∃ group before, g.Plays group (.sequence (before ++ ids))
  | .continuations _ => False
  | _ => True

variable {g : Grammar} {i : Inquiry} {o p c o' p' : Context} {id y x : ElementId}
  {l l' rest : List ElementId}

namespace Context

theorem sound_empty : Context.Sound g ∅ :=
  ⟨faithful_empty, fun k hk => absurd hk (not_marks_empty k)⟩

theorem handOn_le_handOn {around : Cardinality} (hle : o ≤ p) (hl : l ⊆ l') :
    o.handOn g around l ≤ p.handOn g around l' :=
  fun k hk => marks_handOn.mpr ((marks_handOn.mp hk).imp (hle k) (And.imp_right (hl ·)))

end Context

theorem Finds.sound (h : Finds g i o l p) (ho : o.Sound g) : p.Sound g :=
  ⟨h.faithful ho.faithful, fun k hk => (h.marks hk).elim (ho.leaf k) (h.leaves k)⟩

theorem Context.Filled.sound (h : o.Filled g) : o.Sound g := by
  induction h with
  | empty => exact sound_empty
  | openings _ hrun ih => exact ((Finds.of_run _).1 hrun).sound ih
  | continuations _ hrun ih => exact ((Finds.of_run _).2 hrun).sound ih

theorem Alongside.mono {r r' : Run} (h : Alongside g r r') (hle : r.start ≤ r'.start) :
    r.found ⊆ r'.found ∧ r.stop ≤ r'.stop := by
  induction h with
  | leaf | none => exact ⟨List.Subset.refl _, hle⟩
  | unwrap _ _ _ ih =>
    obtain ⟨hl, hp⟩ := ih hle
    exact ⟨hl, Context.handOn_le_handOn hp hl⟩
  | append _ _ _ _ ih ih' =>
    obtain ⟨hl, hp⟩ := ih hle
    obtain ⟨hm, hq⟩ := ih' hp
    exact ⟨List.append_subset.mpr ⟨List.subset_append_of_subset_left _ hl,
      List.subset_append_of_subset_right _ hm⟩, hq⟩
  | past _ _ _ _ _ hrest =>
    exact ⟨fun k hk => List.mem_singleton.mp hk ▸ List.mem_cons_self, Context.le_trans hle hrest.le⟩

theorem Inquiry.InRow.tail (h : InRow g (.sequence (id :: rest))) : InRow g (.sequence rest) := by
  obtain ⟨group, before, hp⟩ := h
  exact ⟨group, before ++ [id], by simpa using hp⟩

theorem Grammar.plays_of_groupAroundWithin {steps : Nat} {member group : ElementId}
    (h : g.groupAroundWithin steps id = .ok (member, some group)) :
    ∃ members, g.Plays group (.sequence members) := by
  induction steps generalizing id with
  | zero => cases h
  | succ steps ih =>
    obtain ⟨container?, hc, h⟩ := bind_eq_ok.mp h
    cases container? with
    | none => cases h
    | some container =>
      obtain ⟨e, he, h⟩ := bind_eq_ok.mp h
      cases hgroup : e.isGroup with
      | false => exact ih (by simpa [hgroup] using h)
      | true =>
        obtain ⟨rfl, rfl⟩ : id = member ∧ container = group := by simpa [hgroup] using h
        cases hk : e.kind with
        | group members =>
          exact ⟨members, Grammar.plays_sequence (Grammar.element_eq_ok_iff.mp he) hk⟩
        | _ => simp [Element.isGroup, ElementKind.isGroup, hk] at hgroup

theorem Inquiry.InRow.of_membersAfter {member group : ElementId} {after : List ElementId}
    (hga : g.groupAround id = .ok (member, some group))
    (haft : g.membersAfter group member = .ok after) : InRow g (.sequence after) := by
  obtain ⟨members, hp⟩ := Grammar.plays_of_groupAroundWithin hga
  obtain ⟨e, he, hk, -⟩ := hp.children_sequence
  obtain rfl : (members.dropWhile (· != member)).tail = after := by
    simpa [Grammar.membersAfter, Grammar.element_eq_ok_iff.mpr he, hk] using haft
  obtain ⟨before, hbefore⟩ :=
    (List.tail_suffix _).trans (List.dropWhile_suffix (p := (· != member)) (l := members))
  exact ⟨group, before, by rwa [hbefore]⟩

theorem Grammar.Unwraps.inRow (hfree : g.ActionFree) (hu : g.Unwraps id i) : i.InRow g := by
  cases hu with
  | sequence hp => exact ⟨id, [], hp⟩
  | choice | call => trivial
  | action hp => exact absurd hp hfree.not_plays

theorem Alongside.of_past {m q} (ho : o.Sound g) (ho' : o'.Sound g)
    (hrow : Inquiry.InRow g (.sequence (id :: rest)))
    (h : Finds g (.openings id) o l p) (hstop : (p.seen g id).isOptional = false)
    (h' : Finds g (.openings id) o' l' p') (hopt : (p'.seen g id).isOptional = true)
    (hrest : Finds g (.sequence rest) p' m q) : Alongside g ⟨o, l, p⟩ ⟨o', l' ++ m, q⟩ := by
  have hwritten : (g.written id).isOptional = false := by
    rw [← Bool.not_eq_true]
    intro hw
    simp [(h.faithful ho.faithful).isOptional_of_written hw] at hstop
  have hp' := h'.sound ho'
  rcases h'.isOptional_seen hp'.faithful hp'.leaf hopt with hw | ⟨hmark, -⟩
  · simp [hwritten] at hw
  · have hid := ho'.leaf id hmark
    obtain ⟨group, before, hplays⟩ := hrow
    obtain ⟨rfl, rfl⟩ := h.unique (.leaf hid)
    obtain ⟨rfl, rfl⟩ := h'.unique (.leaf hid)
    refine .past hid hwritten (fun hm => ?_) hmark hplays hrest
    simp [(ho.faithful.isOptional_seen id).mpr (.inr hm)] at hstop

theorem Finds.alongside (hfree : g.ActionFree) (h : Finds g i o l p)
    (h' : Finds g i o' l' p') (hle : o ≤ o') (ho : o.Sound g) (ho' : o'.Sound g)
    (hi : i.InRow g) : Alongside g ⟨o, l, p⟩ ⟨o', l', p'⟩ := by
  induction h generalizing o' l' p' with
  | leaf hp =>
    obtain ⟨rfl, rfl⟩ := h'.unique (.leaf hp)
    exact .leaf hp
  | closed hp =>
    obtain ⟨rfl, rfl⟩ := h'.unique (.closed hp)
    exact .none
  | unwrap hu _ ih => cases h' with
    | leaf hp => exact absurd hp hu.not_leaf
    | closed hp => exact absurd hp hu.not_closed
    | unwrap hu' h' =>
      cases hu.unique hu'
      exact .unwrap hu.not_leaf (.unwrap hu h') (ih h' hle ho ho' (hu.inRow hfree))
  | sequenceNil =>
    cases h'
    exact .none
  | sequenceStop h hstop ih => cases h' with
    | sequenceStop h' => exact ih h' hle ho ho' trivial
    | sequenceStep h' hopt hrest => exact .of_past ho ho' hi h hstop h' hopt hrest
  | sequenceStep h hopt hrest ih ih' => cases h' with
    | sequenceStop h' hstop =>
      have hp := ((ih h' hle ho ho' trivial).mono hle).2
      have hopt' := (h.faithful ho.faithful).isOptional_mono (h'.faithful ho'.faithful) hp hopt
      simp [hstop] at hopt'
    | sequenceStep h' _ hrest' =>
      have ha := ih h' hle ho ho' trivial
      exact .append h' hrest' ha (ih' hrest' (ha.mono hle).2 (h.sound ho) (h'.sound ho') hi.tail)
  | branchesNil =>
    cases h'
    exact .none
  | branchesCons h _ ih ih' => cases h' with
    | branchesCons h' hrest' =>
      have ha := ih h' hle ho ho' trivial
      exact .append h' hrest' ha (ih' hrest' (ha.mono hle).2 (h.sound ho) (h'.sound ho') trivial)
  | repetitionsNil =>
    cases h'
    exact .none
  | repetitionsOnce _ hrep _ ih => cases h' with
    | repetitionsOnce _ _ h' => exact ih h' hle ho ho' trivial
    | repetitionsAgain hrep' =>
      rw [ho'.faithful.isRepeatable_seen, ← ho.faithful.isRepeatable_seen, hrep] at hrep'
      cases hrep'
  | repetitionsAgain hrep h _ ih ih' => cases h' with
    | repetitionsOnce _ hrep' =>
      rw [ho'.faithful.isRepeatable_seen, ← ho.faithful.isRepeatable_seen, hrep] at hrep'
      cases hrep'
    | repetitionsAgain _ h' hrest' =>
      have ha := ih h' hle ho ho' trivial
      exact .append h' hrest' ha (ih' hrest' (ha.mono hle).2 (h.sound ho) (h'.sound ho') trivial)
  | outermost hga _ ih => cases h' with
    | outermost hga' h' =>
      cases hga.symm.trans hga'
      exact ih h' hle ho ho' trivial
    | follow hga' => cases hga.symm.trans hga'
  | follow hga haft h _ ih ih' => cases h' with
    | outermost hga' => cases hga.symm.trans hga'
    | follow hga' haft' h' hrest' =>
      cases hga.symm.trans hga'
      cases haft.symm.trans haft'
      have ha := ih h' hle ho ho' trivial
      have hrow := Inquiry.InRow.of_membersAfter hga haft
      exact .append h' hrest' ha (ih' hrest' (ha.mono hle).2 (h.sound ho) (h'.sound ho') hrow)
  | bottom | pop | settle | climb | leave => exact hi.elim

theorem Finds.mono (hfree : g.ActionFree) (h : Finds g i o l p) (h' : Finds g i o' l' p')
    (hle : o ≤ o') (ho : o.Sound g) (ho' : o'.Sound g) (hi : i.InRow g) : l ⊆ l' ∧ p ≤ p' :=
  (h.alongside hfree h' hle ho ho' hi).mono hle

/-- The inquiry can come to the leaf only in the row that it is written in. -/
def Inquiry.Around (g : Grammar) (y : ElementId) : Inquiry → Prop
  | .openings id => id ≠ y
  | .sequence ids => InRow g (.sequence ids)
  | .branches ids => y ∉ ids
  | _ => False

/-- A search that comes to the first leaf, from an element that is not the leaf itself and in a
context with no fewer marks, comes to the second leaf as well. -/
def Context.Trails (g : Grammar) (o : Context) (y x : ElementId) : Prop :=
  ∀ id q l p, o ≤ q → q.Sound g → id ≠ y → Finds g (.openings id) q l p → y ∈ l → x ∈ l

theorem Context.Trails.mono (h : o.Trails g y x) (hle : o ≤ p) : p.Trails g y x :=
  fun id q l p hq => h id q l p (Context.le_trans hle hq)

theorem Grammar.Unwraps.around (hg : g.Forest) (hfree : g.ActionFree) {group : ElementId}
    {members : List ElementId} (hp : g.Plays group (.sequence members)) (hy : y ∈ members)
    (hu : g.Unwraps id i) : i.Around g y := by
  have hholds := hp.holds_sequence hy
  cases hu with
  | sequence hp' => exact ⟨id, [], hp'⟩
  | choice hp' =>
    intro hmem
    obtain rfl := hg.holds_unique (hp'.holds_choice hmem) hholds
    cases hp'.unique hp
  | action hp' => exact absurd hp' hfree.not_plays
  | call hp' => exact fun hmem => hg.not_holds_body (hp'.isBody_iff.mpr (Option.mem_toList.mp hmem)) hholds

theorem Grammar.Forest.rest_unique (hg : g.Forest) {group group' : ElementId}
    {before before' rest' : List ElementId} (hp : g.Plays group (.sequence (before ++ y :: rest)))
    (hp' : g.Plays group' (.sequence (before' ++ y :: rest'))) : rest' = rest := by
  have hmem : ∀ {front back : List ElementId}, y ∈ front ++ y :: back := by simp
  obtain rfl := hg.holds_unique (hp.holds_sequence hmem) (hp'.holds_sequence hmem)
  exact Except.ok.inj ((hp'.membersAfter hg).symm.trans (hp.membersAfter hg))

theorem Finds.trails (hg : g.Forest) (hfree : g.ActionFree) {group : ElementId}
    {before : List ElementId} (hp : g.Plays group (.sequence (before ++ y :: rest)))
    {m : List ElementId} (hrow : Finds g (.sequence (y :: rest)) o m p) (ho : o.Sound g)
    (hx : x ∈ m) : o.Trails g y x := by
  suffices hsearch : ∀ {i q l r}, Finds g i q l r → o ≤ q → q.Sound g → i.Around g y → y ∈ l →
      x ∈ l from fun _ _ _ _ hle hq hne hf => hsearch hf hle hq hne
  -- In its row, the leaf is followed by what is written there.
  have hhere : ∀ {rest' q l r}, Inquiry.InRow g (.sequence (y :: rest')) →
      Finds g (.sequence (y :: rest')) q l r → o ≤ q → q.Sound g → x ∈ l := by
    rintro rest' q l r ⟨group', before', hp'⟩ hf hle hq
    obtain rfl := hg.rest_unique hp hp'
    exact (hrow.mono hfree hf hle ho hq ⟨group', before', hp'⟩).1 hx
  intro i q l r hf hle hq hi hy
  induction hf with
  | leaf => exact absurd (List.mem_singleton.mp hy).symm hi
  | closed | sequenceNil | branchesNil => cases hy
  | unwrap hu _ ih => exact ih hle hq (hu.around hg hfree hp (by simp)) hy
  | @sequenceStop id _ _ _ _ h hstop ih =>
    by_cases hid : id = y
    · subst hid
      exact hhere hi (.sequenceStop h hstop) hle hq
    · exact ih hle hq hid hy
  | @sequenceStep id _ _ _ _ _ _ h hopt hrest ih ih' =>
    by_cases hid : id = y
    · subst hid
      exact hhere hi (.sequenceStep h hopt hrest) hle hq
    · rcases List.mem_append.mp hy with hy | hy
      · exact List.mem_append_left _ (ih hle hq hid hy)
      · exact List.mem_append_right _ (ih' (Context.le_trans hle h.le) (h.sound hq) hi.tail hy)
  | branchesCons h _ ih ih' =>
    have hid := List.ne_of_not_mem_cons hi
    have hrest := List.not_mem_of_not_mem_cons hi
    rcases List.mem_append.mp hy with hy | hy
    · exact List.mem_append_left _ (ih hle hq (Ne.symm hid) hy)
    · exact List.mem_append_right _ (ih' (Context.le_trans hle h.le) (h.sound hq) hrest hy)
  | _ => exact hi.elim

namespace Alongside

variable {r r' : Run}

/-- When the first search marks a leaf, the second one marks what trails it. -/
theorem marks_trail (h : Alongside g r r') (hle : r.start ≤ r'.start) (hr' : r'.start.Sound g)
    (hy : g.Plays y .leaf) (ht : r'.start.Trails g y x) (hnot : ¬ r.start.Marks y)
    (hmark : r.stop.Marks y) : r'.stop.Marks x := by
  induction h with
  | leaf | none | past => exact absurd hmark hnot
  | @unwrap id _ _ _ _ _ _ hid hf ha ih =>
    rcases Context.marks_handOn.mp hmark with hmark | ⟨hopt, hmem⟩
    · exact Context.le_handOn _ _ _ _ (ih hle hr' ht hnot hmark)
    · have hne : id ≠ y := fun heq => hid (heq ▸ hy)
      have hx := ht _ _ _ _ (Context.le_refl _) hr' hne hf ((ha.mono hle).1 hmem)
      exact Context.marks_handOn.mpr (.inr ⟨hopt, hx⟩)
  | @append _ _ _ _ p _ _ _ _ _ _ _ hf hf' ha _ ih ih' =>
    by_cases hp : p.Marks y
    · exact hf'.le _ (ih hle hr' ht hnot hp)
    · exact ih' (ha.mono hle).2 (hf.sound hr') (ht.mono hf.le) hp hmark

/-- What the second search finds is found by the first one, or the second one marks it, or it trails
a leaf that the first one has found and not marked. -/
theorem cases_found (hg : g.Forest) (hfree : g.ActionFree) (h : Alongside g r r')
    (hle : r.start ≤ r'.start) (hr' : r'.start.Sound g) (hx : x ∈ r'.found) :
    x ∈ r.found ∨ r'.stop.Marks x ∨ ∃ y ∈ r.found, g.Plays y .leaf ∧
      (g.written y).isOptional = false ∧ ¬ r.stop.Marks y ∧ r'.stop.Trails g y x := by
  induction h with
  | leaf => exact .inl hx
  | none => cases hx
  | @unwrap id _ _ _ _ _ _ _ _ _ ih =>
    cases hopt : (g.written id).isOptional with
    | true => exact .inr (.inl (Context.marks_handOn.mpr (.inr ⟨hopt, hx⟩)))
    | false =>
      simp only [Context.handOn, hopt]
      exact ih hle hr' hx
  | @append _ _ _ _ _ _ q _ _ _ _ _ hf hf' ha ha' ih ih' =>
    have hp := (ha.mono hle).2
    have hp' := hf.sound hr'
    rcases List.mem_append.mp hx with hx | hx
    · rcases ih hle hr' hx with hx | hmark | ⟨y, hmem, hy, hw, hnot, ht⟩
      · exact .inl (List.mem_append_left _ hx)
      · exact .inr (.inl (hf'.le _ hmark))
      · -- The rest of the first search may mark the leaf after all.
        by_cases hmark : q.Marks y
        · exact .inr (.inl (ha'.marks_trail hp hp' hy ht hnot hmark))
        · exact .inr (.inr ⟨y, List.mem_append_left _ hmem, hy, hw, hmark, ht.mono hf'.le⟩)
    · rcases ih' hp hp' hx with hx | hmark | ⟨y, hmem, hrest⟩
      · exact .inl (List.mem_append_right _ hx)
      · exact .inr (.inl hmark)
      · exact .inr (.inr ⟨y, List.mem_append_right _ hmem, hrest⟩)
  | past hid hw hnot hmark hp hrest =>
    have hopt := (hr'.faithful.isOptional_seen _).mpr (.inr hmark)
    have ht := (Finds.sequenceStep (.leaf hid) hopt hrest).trails hg hfree hp hr' hx
    exact .inr (.inr ⟨_, List.mem_singleton_self _, hid, hw, hnot,
      Context.Trails.mono ht hrest.le⟩)

theorem skips (hg : g.Forest) (hfree : g.ActionFree) (h : Alongside g r r')
    (hle : r.start ≤ r'.start) (hr : r.stop.Faithful g) (hr' : r'.start.Sound g)
    (hstop : r'.stop.Faithful g) (hs : r.stop.Skips g r.found) : r'.stop.Skips g r'.found := by
  intro x hx
  rcases h.cases_found hg hfree hle hr' hx with hx | hmark | ⟨y, hy, -, hw, hnot, -⟩
  · exact hr.isOptional_mono hstop (h.mono hle).2 (hs x hx)
  · exact (hstop.isOptional_seen x).mpr (.inr hmark)
  · rcases (hr.isOptional_seen y).mp (hs y hy) with hopt | hmark
    · simp [hw] at hopt
    · exact absurd hmark hnot

end Alongside

/-- The second answer has no less in it than the first one, with no fewer marks, and may be skipped
if the first one may. -/
structure Exceeds (g : Grammar) (l : List ElementId) (p : Context) (l' : List ElementId)
    (p' : Context) : Prop where
  found : l ⊆ l'
  marks : p ≤ p'
  skips : p.Skips g l → p'.Skips g l'

namespace Exceeds

variable {q q' : Context} {m m' : List ElementId}

theorem of_ahead (hg : g.Forest) (hfree : g.ActionFree) (h : Finds g (.ahead id) o l p)
    (h' : Finds g (.ahead id) o' l' p') (hle : o ≤ o') (ho : o.Sound g) (ho' : o'.Sound g) :
    Exceeds g l p l' p' := by
  have ha := h.alongside hfree h' hle ho ho' trivial
  obtain ⟨hfound, hmarks⟩ := ha.mono hle
  exact ⟨hfound, hmarks,
    ha.skips hg hfree hle (h.faithful ho.faithful) ho' (h'.faithful ho'.faithful)⟩

theorem append_right (h : Exceeds g l p l' p') (hs : ¬ p.Skips g l) (hle : p' ≤ q') :
    Exceeds g l p (l' ++ m') q' :=
  ⟨List.subset_append_of_subset_left _ h.found, Context.le_trans h.marks hle, fun h => absurd h hs⟩

theorem append (h : Exceeds g l p l' p') (hs : p.Skips g l) (hm : Exceeds g m q m' q')
    (hf : Finds g i p' m' q') (hp' : p'.Faithful g) : Exceeds g (l ++ m) q (l' ++ m') q' where
  found := List.append_subset.mpr ⟨List.subset_append_of_subset_left _ h.found,
    List.subset_append_of_subset_right _ hm.found⟩
  marks := hm.marks
  skips hall := hf.skips_append hp' (h.skips hs)
    (hm.skips fun k hk => hall k (List.mem_append_right _ hk))

theorem climb (hg : g.Forest) (hfree : g.ActionFree) (h : Finds g (.ahead id) o l p)
    (hs : p.Skips g l) (h' : Finds g (.ahead id) o' l' p') (hle : o ≤ o') (ho : o.Sound g)
    (ho' : o'.Sound g) {group : ElementId} (habove' : Finds g i p' m' q')
    (habove : p ≤ p' → p.Sound g → p'.Sound g →
      m ⊆ m' ∧ q ≤ q' ∧ ∀ id, [group] = [id] → q.Skips g m → q'.Skips g m') :
    Exceeds g (l ++ m) q (l' ++ m') q' := by
  have ha := of_ahead hg hfree h h' hle ho ho'
  have hp' := h'.sound ho'
  obtain ⟨hfound, hmarks, hskips⟩ := habove ha.marks (h.sound ho) hp'
  exact ha.append hs ⟨hfound, hmarks, hskips _ rfl⟩ habove' hp'.faithful

theorem calls {calls : List ElementId} (h : Exceeds g l p l' p')
    (hf : Finds g (.continuations calls) p m q) (hf' : Finds g (.continuations calls) p' m' q')
    (hfound : m ⊆ m') (hmarks : q ≤ q') : l ++ m ⊆ l' ++ m' ∧ q ≤ q' ∧
      ∀ top, id :: calls = [top] → q.Skips g (l ++ m) → q'.Skips g (l' ++ m') := by
  refine ⟨List.append_subset.mpr ⟨List.subset_append_of_subset_left _ h.found,
    List.subset_append_of_subset_right _ hfound⟩, hmarks, fun top htop => ?_⟩
  cases htop
  cases hf
  cases hf'
  simpa using h.skips

end Exceeds

/-- Of two searches for the continuations of one position, the one in the context with more marks
finds no less and leaves no fewer marks. If the position is in no call, it also skips no less. With
actions this fails, since a search may then look behind a leaf without looking at the leaf. -/
theorem Finds.continuations_mono (hg : g.Forest) (hfree : g.ActionFree) {stack : List ElementId}
    (h : Finds g (.continuations stack) o l p) (h' : Finds g (.continuations stack) o' l' p')
    (hle : o ≤ o') (ho : o.Sound g) (ho' : o'.Sound g) :
    l ⊆ l' ∧ p ≤ p' ∧ ∀ id, stack = [id] → p.Skips g l → p'.Skips g l' := by
  generalize hi : Inquiry.continuations stack = i at h
  induction h generalizing stack o' l' p' with
  | bottom =>
    cases hi
    cases h'
    exact ⟨List.Subset.refl _, hle, by simp⟩
  | pop hga hahead hcalls _ ih =>
    cases hi
    cases h' with
    | pop _ hahead' hcalls' =>
      have ha := Exceeds.of_ahead hg hfree hahead hahead' hle ho ho'
      obtain ⟨hfound, hmarks, -⟩ := ih hcalls' ha.marks (hahead.sound ho) (hahead'.sound ho') rfl
      exact ha.calls hcalls hcalls' hfound hmarks
    | settle hga' | climb hga' | leave hga' => cases hga.symm.trans hga'
  | @settle id _ _ _ _ l p hga hahead hs =>
    cases hi
    have ha : ∀ {l' p'}, Finds g (.ahead id) o' l' p' → Exceeds g l p l' p' := fun hahead' =>
      .of_ahead hg hfree hahead hahead' hle ho ho'
    suffices he : Exceeds g l p l' p' from ⟨he.found, he.marks, fun _ _ => he.skips⟩
    cases h' with
    | pop hga' => cases hga.symm.trans hga'
    | settle _ hahead' => exact ha hahead'
    | climb _ hahead' _ habove' => exact (ha hahead').append_right hs habove'.le
    | leave _ hahead' _ habove' _ hcalls' =>
      exact ((ha hahead').append_right hs habove'.le).append_right hs hcalls'.le
  | @climb id _ _ group _ l p m q hga hahead hs _ hs' _ ih =>
    cases hi
    have hout : ∀ {l' p' m' q'}, Finds g (.ahead id) o' l' p' →
        Finds g (.continuations [group]) p' m' q' → Exceeds g (l ++ m) q (l' ++ m') q' :=
      fun hahead' habove' => .climb hg hfree hahead hs hahead' hle ho ho' habove'
        fun hle ho ho' => ih habove' hle ho ho' rfl
    suffices he : Exceeds g (l ++ m) q l' p' from ⟨he.found, he.marks, fun _ _ => he.skips⟩
    cases h' with
    | pop hga' => cases hga.symm.trans hga'
    | settle _ hahead' hs'' =>
      exact absurd ((Exceeds.of_ahead hg hfree hahead hahead' hle ho ho').skips hs) hs''
    | climb hga' hahead' _ habove' =>
      cases hga.symm.trans hga'
      exact hout hahead' habove'
    | leave hga' hahead' _ habove' _ hcalls' =>
      cases hga.symm.trans hga'
      exact (hout hahead' habove').append_right hs' hcalls'.le
  | @leave id _ _ group _ l p m q _ _ hga hahead hs habove hs' hcalls _ ih ih' =>
    cases hi
    have hout : ∀ {l' p' m' q'}, Finds g (.ahead id) o' l' p' →
        Finds g (.continuations [group]) p' m' q' → Exceeds g (l ++ m) q (l' ++ m') q' :=
      fun hahead' habove' => .climb hg hfree hahead hs hahead' hle ho ho' habove'
        fun hle ho ho' => ih habove' hle ho ho' rfl
    cases h' with
    | pop hga' => cases hga.symm.trans hga'
    | settle _ hahead' hs'' =>
      exact absurd ((Exceeds.of_ahead hg hfree hahead hahead' hle ho ho').skips hs) hs''
    | climb hga' hahead' _ habove' hs'' =>
      cases hga.symm.trans hga'
      exact absurd ((hout hahead' habove').skips hs') hs''
    | leave hga' hahead' _ habove' _ hcalls' =>
      cases hga.symm.trans hga'
      have he := hout hahead' habove'
      have hq := habove.sound (hahead.sound ho)
      have hq' := habove'.sound (hahead'.sound ho')
      obtain ⟨hfound, hmarks, -⟩ := ih' hcalls' he.marks hq hq' rfl
      exact he.calls hcalls hcalls' hfound hmarks
  | _ => cases hi

end GrammarLookahead
