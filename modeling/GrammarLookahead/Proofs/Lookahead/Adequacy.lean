import GrammarLookahead.Proofs.Lookahead.Asks

namespace GrammarLookahead

variable {g : Grammar}

theorem run_bind_eq_ok {σ α β : Type} {m : StateT σ (Except Fault) α}
    {f : α → StateT σ (Except Fault) β} {s u : σ} {b : β} :
    (m >>= f).run s = .ok (b, u) ↔ ∃ a t, m.run s = .ok (a, t) ∧ (f a).run t = .ok (b, u) := by
  rw [StateT.run_bind, bind_eq_ok]
  exact Prod.exists

theorem run_lift_eq_ok {σ α : Type} {x : Except Fault α} {s t : σ} {a : α} :
    (liftM x : StateT σ (Except Fault) α).run s = .ok (a, t) ↔ x = .ok a ∧ t = s := by
  cases x with
  | error fault =>
    constructor
    · intro h
      cases h
    · intro hok
      obtain ⟨h, -⟩ := hok
      cases h
  | ok b =>
    rw [run_lift_ok rfl]
    simp [eq_comm]

/-- The openings of those of the elements that may be repeated. -/
def repetitionsAmong (g : Grammar) (explore : ElementId → Query (List ElementId)) :
    List ElementId → Query (List ElementId)
  | [] => return []
  | id :: rest => do
    let own ← repetition g explore id
    return own ++ (← repetitionsAmong g explore rest)

theorem repetitions_eq (explore : ElementId → Query (List ElementId)) (id member : ElementId) :
    repetitions g explore id member = repetitionsAmong g explore (repeated id member) := by
  unfold repetitions repeated
  split_ifs <;> simp [repetitionsAmong]

theorem scanBranches_toList (explore : ElementId → Query (List ElementId))
    (id? : Option ElementId) : scanBranches explore id?.toList = id?.elim (pure []) explore := by
  cases id? <;> simp [scanBranches]

/-- The query for an inquiry, within a depth. -/
def Inquiry.query (g : Grammar) (depth : Nat) : Inquiry → Query (List ElementId)
  | .openings id => g.openingsWithin depth id
  | .sequence ids => scanSequence g (g.openingsWithin depth) ids
  | .branches ids => scanBranches (g.openingsWithin depth) ids
  | .repetitions ids => repetitionsAmong g (g.openingsWithin depth) ids
  | .ahead id => do
    let (member, group?) ← g.groupAround id
    let again ← GrammarLookahead.repetitions g (g.openingsWithin depth) id member
    match group? with
    | none => return again
    | some group =>
      return again ++ (← scanSequence g (g.openingsWithin depth) (← g.membersAfter group member))
  | .continuations stack => g.continuationsWithin depth stack

theorem lift_ok {α : Type} {x : Except Fault α} {a : α} (h : x = .ok a) :
    (liftM x : Query α) = pure a := by
  subst h
  rfl

namespace Grammar

theorem openingsWithin_leaf {id : ElementId} (hp : g.Plays id .leaf) (depth : Nat) :
    g.openingsWithin (depth + 1) id = pure [id] := by
  obtain ⟨e, he, hr⟩ := hp
  rw [openingsWithin, lift_ok (element_eq_ok_iff.mpr he), pure_bind]
  cases hk : e.kind with
  | ruleCall name target arguments =>
    rw [hk] at hr
    simp only [lift_ok (callee_eq he hk), pure_bind]
    cases target with
    | none => rfl
    | some target =>
      cases ht : g.parserRule? target with
      | none => simp [ht]
      | some called => simp [roleOf, ht] at hr
  | _ => first | rfl | simp [roleOf, hk] at hr

theorem openingsWithin_closed {id : ElementId} (hp : g.Plays id .closed) (depth : Nat) :
    g.openingsWithin (depth + 1) id = pure [] := by
  obtain ⟨e, he, hr⟩ := hp
  rw [openingsWithin, lift_ok (element_eq_ok_iff.mpr he), pure_bind]
  cases hk : e.kind with
  | ruleCall name target arguments =>
    rw [hk] at hr
    cases target with
    | none => simp [roleOf] at hr
    | some target => cases ht : g.parserRule? target <;> simp [roleOf, ht] at hr
  | _ => first | rfl | simp [roleOf, hk] at hr

theorem openingsWithin_unwrap {id : ElementId} {i : Inquiry} (hu : g.Unwraps id i) (depth : Nat) :
    g.openingsWithin (depth + 1) id = inheriting g (g.written id) (i.query g depth) := by
  obtain ⟨e, he⟩ := hu.issued
  have hplays : ∀ {role}, g.roleOf e.kind = role → g.Plays id role := fun hr => ⟨e, he, hr⟩
  rw [openingsWithin, lift_ok (element_eq_ok_iff.mpr he), pure_bind, written_of he]
  cases hk : e.kind with
  | group members =>
    cases hu.unique (.sequence (hplays (by rw [hk]; rfl)))
    rfl
  | alternatives branches =>
    cases hu.unique (.choice (hplays (by rw [hk]; rfl)))
    rfl
  | unorderedGroup elements => exact absurd (hplays (by rw [hk]; rfl)) hu.not_closed
  | assignment feature operator terminal =>
    cases hu.unique (.choice (hplays (by rw [hk]; rfl)))
    simp [Inquiry.query, scanBranches]
  | action typeName feature =>
    cases hu.unique (.action (hplays (by rw [hk]; rfl)))
    rfl
  | ruleCall name target arguments =>
    simp only [lift_ok (callee_eq he hk), pure_bind]
    cases target with
    | none => exact absurd (hplays (by rw [hk]; rfl)) hu.not_leaf
    | some target =>
      cases ht : g.parserRule? target with
      | none => exact absurd (hplays (by simp [hk, roleOf, ht])) hu.not_leaf
      | some called =>
        have hcall : g.Plays id (.call target called.body) := hplays (by simp [hk, roleOf, ht])
        cases hu.unique (.call hcall)
        simp [ht, Inquiry.query, scanBranches_toList]
  | _ => exact absurd (hplays (by rw [hk]; rfl)) hu.not_leaf

theorem continuationsWithin_ahead {id member : ElementId} {group? : Option ElementId}
    (hga : g.groupAround id = .ok (member, group?)) (calls : List ElementId) (depth : Nat) :
    g.continuationsWithin (depth + 1) (id :: calls) =
      (Inquiry.ahead id).query g depth >>= fun found =>
        match group? with
        | none => (found ++ ·) <$> g.continuationsWithin depth calls
        | some group => widen g found (g.continuationsWithin depth [group]) >>= fun found =>
            widen g found (g.continuationsWithin depth calls) := by
  rw [continuationsWithin, lift_ok hga, pure_bind]
  simp only [Inquiry.query, lift_ok hga, pure_bind, bind_assoc]
  cases group? <;> simp

end Grammar

namespace Query

variable {o p q : Context} {id : ElementId} {rest l l' : List ElementId}
  {explore : ElementId → Query (List ElementId)}

theorem run_inheriting {around : Cardinality} {explore : Query (List ElementId)}
    (h : explore.run o = .ok (l, p)) (hi : ∀ id ∈ l, g.Issued id) :
    (inheriting g around explore).run o = .ok (l, p.handOn g around l) := by
  rw [inheriting, run_bind_ok h]
  exact run_bind_ok (run_forM_inherit hi)

theorem run_scanSequence_stop (h : (explore id).run o = .ok (l, p)) (hi : g.Issued id)
    (ho : (p.seen g id).isOptional = false) :
    (scanSequence g explore (id :: rest)).run o = .ok (l, p) := by
  rw [scanSequence, run_bind_ok h]
  refine (run_bind_ok (run_isOptional hi)).trans ?_
  rw [ho]
  rfl

theorem run_scanSequence_step (h : (explore id).run o = .ok (l, p)) (hi : g.Issued id)
    (ho : (p.seen g id).isOptional = true)
    (hr : (scanSequence g explore rest).run p = .ok (l', q)) :
    (scanSequence g explore (id :: rest)).run o = .ok (l ++ l', q) := by
  rw [scanSequence, run_bind_ok h]
  refine (run_bind_ok (run_isOptional hi)).trans ?_
  rw [ho, if_pos rfl, run_bind_ok hr]
  rfl

theorem run_scanBranches_cons (h : (explore id).run o = .ok (l, p))
    (hr : (scanBranches explore rest).run p = .ok (l', q)) :
    (scanBranches explore (id :: rest)).run o = .ok (l ++ l', q) := by
  rw [scanBranches, run_bind_ok h, run_bind_ok hr]
  rfl

theorem run_repetitionsAmong_once (hi : g.Issued id) (ho : (o.seen g id).isRepeatable = false)
    (hr : (repetitionsAmong g explore rest).run o = .ok (l, p)) :
    (repetitionsAmong g explore (id :: rest)).run o = .ok (l, p) := by
  have hown : (repetition g explore id).run o = .ok ([], o) := by
    refine (run_bind_ok (run_isRepeatable hi)).trans ?_
    rw [ho]
    rfl
  rw [repetitionsAmong, run_bind_ok hown, run_bind_ok hr]
  rfl

theorem run_repetitionsAmong_again (hi : g.Issued id) (ho : (o.seen g id).isRepeatable = true)
    (h : (explore id).run o = .ok (l, p))
    (hr : (repetitionsAmong g explore rest).run p = .ok (l', q)) :
    (repetitionsAmong g explore (id :: rest)).run o = .ok (l ++ l', q) := by
  have hown : (repetition g explore id).run o = .ok (l, p) := by
    refine (run_bind_ok (run_isRepeatable hi)).trans ?_
    rw [ho, if_pos rfl]
    exact h
  rw [repetitionsAmong, run_bind_ok hown, run_bind_ok hr]
  rfl

theorem run_widen_stop (hi : ∀ id ∈ l, g.Issued id) (ho : ¬ o.Skips g l)
    {further : Query (List ElementId)} : (widen g l further).run o = .ok (l, o) := by
  have hall : (l.all fun id => (o.seen g id).isOptional) = false := by
    rw [Bool.eq_false_iff, ne_eq, List.all_eq_true]
    exact ho
  refine (run_bind_ok (run_allOptional hi)).trans ?_
  rw [hall]
  rfl

theorem run_widen_step (hi : ∀ id ∈ l, g.Issued id) (ho : o.Skips g l)
    {further : Query (List ElementId)} (h : further.run o = .ok (l', p)) :
    (widen g l further).run o = .ok (l ++ l', p) := by
  refine (run_bind_ok (run_allOptional hi)).trans ?_
  rw [List.all_eq_true.mpr ho, if_pos rfl, run_bind_ok h]
  rfl

end Query

/-- A query has the answer of the relation if the queries that it makes on its way have theirs. -/
theorem Finds.run_of_asks {depth : Nat} {i : Inquiry} {o p : Context} {l : List ElementId}
    (h : Finds g i o l p) (hasks : ∀ {j q l p}, Asks g (i, o) (j, q) → Finds g j q l p →
      (j.query g depth).run q = .ok (l, p)) : (i.query g (depth + i.levels)).run o = .ok (l, p) := by
  have hissued : ∀ {i o l p}, Finds g i o l p → ∀ id ∈ l, g.Issued id :=
    fun h id hid => (h.leaves id hid).issued
  cases h with
  | leaf hp =>
    rw [Inquiry.query, Inquiry.levels, Grammar.openingsWithin_leaf hp]
    rfl
  | closed hp =>
    rw [Inquiry.query, Inquiry.levels, Grammar.openingsWithin_closed hp]
    rfl
  | unwrap hu h =>
    rw [Inquiry.query, Inquiry.levels, Grammar.openingsWithin_unwrap hu]
    exact Query.run_inheriting (hasks (.unwrap hu) h) (hissued h)
  | sequenceNil | branchesNil | repetitionsNil | bottom => rfl
  | sequenceStop h ho => exact Query.run_scanSequence_stop (hasks .sequenceHead h) h.issued ho
  | sequenceStep h ho hr =>
    have hrest := hasks (.sequenceTail h ho) hr
    exact Query.run_scanSequence_step (hasks .sequenceHead h) h.issued ho hrest
  | branchesCons h hr =>
    exact Query.run_scanBranches_cons (hasks .branchesHead h) (hasks (.branchesTail h) hr)
  | repetitionsOnce hi hrep hr =>
    exact Query.run_repetitionsAmong_once hi hrep (hasks (.repetitionsOnce hrep) hr)
  | repetitionsAgain hrep h hr =>
    have hrest := hasks (.repetitionsTail hrep h) hr
    exact Query.run_repetitionsAmong_again h.issued hrep (hasks (.repetitionsHead hrep) h) hrest
  | outermost hga h =>
    have hagain := hasks (.again hga) h
    simp only [Inquiry.query, lift_ok hga, pure_bind, repetitions_eq]
    exact run_bind_ok hagain
  | follow hga haft h hr =>
    have hagain := hasks (.again hga) h
    have hfollowing := hasks (.follow hga haft h) hr
    simp only [Inquiry.query, lift_ok hga, pure_bind, repetitions_eq]
    refine (run_bind_ok hagain).trans ?_
    rw [lift_ok haft, pure_bind]
    exact run_bind_ok hfollowing
  | pop hga h hr =>
    have hahead := hasks .top h
    have hcalls := hasks (.pop hga h) hr
    rw [Inquiry.query, Inquiry.levels, Grammar.continuationsWithin_ahead hga]
    refine (run_bind_ok hahead).trans ?_
    simp only [map_eq_pure_bind]
    exact run_bind_ok hcalls
  | settle hga h hs =>
    have hahead := hasks .top h
    rw [Inquiry.query, Inquiry.levels, Grammar.continuationsWithin_ahead hga]
    refine (run_bind_ok hahead).trans ?_
    refine (run_bind_ok (Query.run_widen_stop (hissued h) hs)).trans ?_
    exact Query.run_widen_stop (hissued h) hs
  | climb hga h hs h' hs' =>
    have hahead := hasks .top h
    have hgroup := hasks (.climb hga h hs) h'
    have hi := fun id hid => (List.mem_append.mp hid).elim (hissued h id) (hissued h' id)
    rw [Inquiry.query, Inquiry.levels, Grammar.continuationsWithin_ahead hga]
    refine (run_bind_ok hahead).trans ?_
    refine (run_bind_ok (Query.run_widen_step (hissued h) hs hgroup)).trans ?_
    exact Query.run_widen_stop hi hs'
  | leave hga h hs h' hs' hr =>
    have hahead := hasks .top h
    have hgroup := hasks (.climb hga h hs) h'
    have hcalls := hasks (.leave hga h hs h' hs') hr
    have hi := fun id hid => (List.mem_append.mp hid).elim (hissued h id) (hissued h' id)
    rw [Inquiry.query, Inquiry.levels, Grammar.continuationsWithin_ahead hga]
    refine (run_bind_ok hahead).trans ?_
    refine (run_bind_ok (Query.run_widen_step (hissued h) hs hgroup)).trans ?_
    exact Query.run_widen_step hi hs' hcalls

/-- Within a depth that suffices, and every greater one, queries give the answer of the relation. -/
theorem Enough.run {depth depth' : Nat} {s : Inquiry × Context} (h : Enough g depth s)
    (hle : depth ≤ depth') {l : List ElementId} {p : Context} (hfinds : Finds g s.1 s.2 l p) :
    (s.1.query g depth').run s.2 = .ok (l, p) := by
  induction h generalizing depth' l p with
  | @intro depth below s _ hbelow _ ih =>
    obtain ⟨depth', rfl⟩ : ∃ d, depth' = d + s.1.levels := ⟨depth' - s.1.levels, by omega⟩
    exact hfinds.run_of_asks fun ha hf => ih _ ha (by omega) hf

/-- Queries give the answer of the relation within some depth and every greater one. -/
theorem Finds.run {i : Inquiry} {o p : Context} {l : List ElementId} (h : Finds g i o l p) :
    ∃ bound, ∀ depth, bound ≤ depth → (i.query g depth).run o = .ok (l, p) := by
  obtain ⟨bound, henough⟩ := h.enough
  exact ⟨bound, fun _ hle => henough.run hle h⟩

namespace Grammar

theorem issued_of_container {id : ElementId} {outer? : Option ElementId}
    (h : g.container id = .ok outer?) : g.Issued id := by
  obtain ⟨e, he, -⟩ := bind_eq_ok.mp (show g.element id >>= _ = _ from h)
  exact ⟨e, element_eq_ok_iff.mp he⟩

theorem issued_of_groupAroundWithin {steps : Nat} {id member : ElementId}
    {group? : Option ElementId} (h : g.groupAroundWithin steps id = .ok (member, group?)) :
    g.Issued id ∧ g.Issued member := by
  induction steps generalizing id with
  | zero => cases h
  | succ steps ih =>
    obtain ⟨outer?, houter, h⟩ := bind_eq_ok.mp h
    have hid := issued_of_container houter
    cases outer? with
    | none =>
      cases h
      exact ⟨hid, hid⟩
    | some outer =>
      obtain ⟨e, -, h⟩ := bind_eq_ok.mp h
      split_ifs at h
      · cases h
        exact ⟨hid, hid⟩
      · exact ⟨hid, (ih h).2⟩

theorem issued_of_groupAround {id member : ElementId} {group? : Option ElementId}
    (h : g.groupAround id = .ok (member, group?)) : ∀ other ∈ repeated id member, g.Issued other := by
  obtain ⟨hid, hmember⟩ := issued_of_groupAroundWithin h
  unfold repeated
  split_ifs <;> simp [hid, hmember]

end Grammar

namespace Finds

variable {explore : ElementId → Query (List ElementId)} {ids : List ElementId} {o p : Context}
  {l : List ElementId}

theorem of_scanSequence (hex : ∀ {id o l p}, (explore id).run o = .ok (l, p) →
    Finds g (.openings id) o l p) (h : (scanSequence g explore ids).run o = .ok (l, p)) :
    Finds g (.sequence ids) o l p := by
  induction ids generalizing o l p with
  | nil =>
    cases h
    exact .sequenceNil
  | cons id rest ih =>
    obtain ⟨found, q, hfound, h⟩ := run_bind_eq_ok.mp h
    have hid := hex hfound
    obtain ⟨_, _, hopt, h⟩ := run_bind_eq_ok.mp h
    cases (Query.run_isOptional hid.issued).symm.trans hopt
    cases ho : (q.seen g id).isOptional with
    | true =>
      rw [ho, if_pos rfl] at h
      obtain ⟨further, r, hfurther, h⟩ := run_bind_eq_ok.mp h
      cases h
      exact .sequenceStep hid ho (ih hfurther)
    | false =>
      rw [ho, if_neg (by simp)] at h
      cases h
      exact .sequenceStop hid ho

theorem of_scanBranches (hex : ∀ {id o l p}, (explore id).run o = .ok (l, p) →
    Finds g (.openings id) o l p) (h : (scanBranches explore ids).run o = .ok (l, p)) :
    Finds g (.branches ids) o l p := by
  induction ids generalizing o l p with
  | nil =>
    cases h
    exact .branchesNil
  | cons id rest ih =>
    obtain ⟨found, q, hfound, h⟩ := run_bind_eq_ok.mp h
    obtain ⟨further, r, hfurther, h⟩ := run_bind_eq_ok.mp h
    cases h
    exact .branchesCons (hex hfound) (ih hfurther)

theorem of_repetitionsAmong (hex : ∀ {id o l p}, (explore id).run o = .ok (l, p) →
    Finds g (.openings id) o l p) (hi : ∀ id ∈ ids, g.Issued id)
    (h : (repetitionsAmong g explore ids).run o = .ok (l, p)) :
    Finds g (.repetitions ids) o l p := by
  induction ids generalizing o l p with
  | nil =>
    cases h
    exact .repetitionsNil
  | cons id rest ih =>
    have hid := hi id List.mem_cons_self
    obtain ⟨found, q, hfound, h⟩ := run_bind_eq_ok.mp h
    obtain ⟨further, r, hfurther, h⟩ := run_bind_eq_ok.mp h
    cases h
    have hrest := ih (fun other ho => hi other (List.mem_cons_of_mem _ ho)) hfurther
    obtain ⟨_, _, hrep, hfound⟩ := run_bind_eq_ok.mp hfound
    cases (Query.run_isRepeatable hid).symm.trans hrep
    cases ho : (o.seen g id).isRepeatable with
    | true =>
      rw [ho, if_pos rfl] at hfound
      exact .repetitionsAgain ho (hex hfound) hrest
    | false =>
      rw [ho, if_neg (by simp)] at hfound
      cases hfound
      exact .repetitionsOnce hid ho hrest

theorem of_ahead {depth : Nat} {id : ElementId} (hex : ∀ {id o l p},
    (g.openingsWithin depth id).run o = .ok (l, p) → Finds g (.openings id) o l p)
    (h : ((Inquiry.ahead id).query g depth).run o = .ok (l, p)) : Finds g (.ahead id) o l p := by
  obtain ⟨⟨member, group?⟩, _, hlift, hscan⟩ := run_bind_eq_ok.mp h
  obtain ⟨hga, rfl⟩ := run_lift_eq_ok.mp hlift
  obtain ⟨again, q, hagain, hscan⟩ := run_bind_eq_ok.mp hscan
  rw [repetitions_eq] at hagain
  have hrepetitions := of_repetitionsAmong hex (Grammar.issued_of_groupAround hga) hagain
  cases group? with
  | none =>
    cases hscan
    exact .outermost hga hrepetitions
  | some group =>
    obtain ⟨after, _, hlift, hrest⟩ := run_bind_eq_ok.mp hscan
    obtain ⟨hafter, rfl⟩ := run_lift_eq_ok.mp hlift
    obtain ⟨following, r, hfollowing, hrest⟩ := run_bind_eq_ok.mp hrest
    cases hrest
    exact .follow hga hafter hrepetitions (of_scanSequence hex hfollowing)

theorem of_openingsWithin {depth : Nat} {id : ElementId} (hquery : ∀ {i o l p},
    g.Unwraps id i → (i.query g depth).run o = .ok (l, p) → Finds g i o l p)
    (h : (g.openingsWithin (depth + 1) id).run o = .ok (l, p)) : Finds g (.openings id) o l p := by
  have hid : g.Issued id := by
    obtain ⟨e, _, hlift, -⟩ := run_bind_eq_ok.mp h
    exact ⟨e, Grammar.element_eq_ok_iff.mp (run_lift_eq_ok.mp hlift).1⟩
  obtain hp | hp | ⟨i, hu⟩ := hid.unwraps
  · rw [Grammar.openingsWithin_leaf hp] at h
    cases h
    exact .leaf hp
  · rw [Grammar.openingsWithin_closed hp] at h
    cases h
    exact .closed hp
  · rw [Grammar.openingsWithin_unwrap hu] at h
    obtain ⟨found, q, hfound, h⟩ := run_bind_eq_ok.mp h
    have hi := hquery hu hfound
    obtain ⟨_, _, hinherit, h⟩ := run_bind_eq_ok.mp h
    cases (Query.run_forM_inherit fun other ho => (hi.leaves other ho).issued).symm.trans hinherit
    cases h
    exact .unwrap hu hi

theorem of_widen {further : Query (List ElementId)} {found : List ElementId}
    (hi : ∀ id ∈ found, g.Issued id) (h : (widen g found further).run o = .ok (l, p)) :
    ¬ o.Skips g found ∧ l = found ∧ p = o ∨
      o.Skips g found ∧ ∃ l', further.run o = .ok (l', p) ∧ l = found ++ l' := by
  obtain ⟨_, _, hall, h⟩ := run_bind_eq_ok.mp h
  cases (Query.run_allOptional hi).symm.trans hall
  by_cases hs : o.Skips g found
  · rw [List.all_eq_true.mpr hs, if_pos rfl] at h
    obtain ⟨l', _, hfurther, h⟩ := run_bind_eq_ok.mp h
    cases h
    exact .inr ⟨hs, l', hfurther, rfl⟩
  · rw [if_neg (mt List.all_eq_true.mp hs)] at h
    cases h
    exact .inl ⟨hs, rfl, rfl⟩

theorem of_continuationsWithin {depth : Nat} {stack : List ElementId} (hahead : ∀ {id o l p},
    ((Inquiry.ahead id).query g depth).run o = .ok (l, p) → Finds g (.ahead id) o l p)
    (hcont : ∀ {stack o l p}, (g.continuationsWithin depth stack).run o = .ok (l, p) →
      Finds g (.continuations stack) o l p)
    (h : (g.continuationsWithin (depth + 1) stack).run o = .ok (l, p)) :
    Finds g (.continuations stack) o l p := by
  cases stack with
  | nil =>
    cases h
    exact .bottom
  | cons id calls =>
    obtain ⟨⟨member, group?⟩, hga⟩ : ∃ around, g.groupAround id = .ok around := by
      obtain ⟨around, _, hlift, -⟩ := run_bind_eq_ok.mp h
      exact ⟨around, (run_lift_eq_ok.mp hlift).1⟩
    rw [Grammar.continuationsWithin_ahead hga] at h
    obtain ⟨found, q, hfound, h⟩ := run_bind_eq_ok.mp h
    have hid := hahead hfound
    cases group? with
    | none =>
      simp only [map_eq_pure_bind] at h
      obtain ⟨further, r, hfurther, h⟩ := run_bind_eq_ok.mp h
      cases h
      exact .pop hga hid (hcont hfurther)
    | some group =>
      obtain ⟨wider, r, hwider, hwidest⟩ := run_bind_eq_ok.mp h
      have hi : ∀ id ∈ found, g.Issued id := fun id hid' => (hid.leaves id hid').issued
      obtain ⟨hs, rfl, rfl⟩ | ⟨hs, above, habove, rfl⟩ := of_widen hi hwider
      · obtain ⟨-, rfl, rfl⟩ | ⟨hs', -⟩ := of_widen hi hwidest
        · exact .settle hga hid hs
        · exact absurd hs' hs
      · have hgroup := hcont habove
        have hi' : ∀ id ∈ found ++ above, g.Issued id := fun id hid' =>
          ((List.mem_append.mp hid').elim (hid.leaves id) (hgroup.leaves id)).issued
        obtain ⟨hs', rfl, rfl⟩ | ⟨hs', below, hbelow, rfl⟩ := of_widen hi' hwidest
        · exact .climb hga hid hs hgroup hs'
        · exact .leave hga hid hs hgroup hs' (hcont hbelow)

/-- What the queries answer, the relation has. -/
theorem of_run (depth : Nat) :
    (∀ {id o l p}, (g.openingsWithin depth id).run o = .ok (l, p) →
      Finds g (.openings id) o l p) ∧
    ∀ {stack o l p}, (g.continuationsWithin depth stack).run o = .ok (l, p) →
      Finds g (.continuations stack) o l p := by
  induction depth with
  | zero =>
    constructor
    · intro _ _ _ _ h
      cases h
    · intro _ _ _ _ h
      cases h
  | succ depth ih =>
    obtain ⟨hopen, hcont⟩ := ih
    refine ⟨of_openingsWithin fun hu h => ?_, of_continuationsWithin (of_ahead hopen) hcont⟩
    cases hu with
    | sequence => exact of_scanSequence hopen h
    | choice | call => exact of_scanBranches hopen h
    | action => exact hcont h

theorem continuations_iff {stack : List ElementId} : Finds g (.continuations stack) o l p ↔
    ∃ depth, (g.continuationsWithin depth stack).run o = .ok (l, p) := by
  constructor
  · intro h
    obtain ⟨bound, hbound⟩ := h.run
    exact ⟨bound, hbound bound (Nat.le_refl bound)⟩
  · intro h
    obtain ⟨depth, hrun⟩ := h
    exact (of_run depth).2 hrun

end Finds

namespace Grammar

/-- The search for the openings of an element ends exactly if the relation has an answer. -/
theorem openingsWithin_ends_iff {id : ElementId} {o : Context} :
    (∃ depth answer, (g.openingsWithin depth id).run o = .ok answer) ↔
      ∃ l p, Finds g (.openings id) o l p := by
  constructor
  · intro hends
    obtain ⟨depth, ⟨l, p⟩, h⟩ := hends
    exact ⟨l, p, (Finds.of_run depth).1 h⟩
  · intro hfinds
    obtain ⟨l, p, h⟩ := hfinds
    obtain ⟨bound, hbound⟩ := h.run
    exact ⟨bound, (l, p), hbound bound (Nat.le_refl bound)⟩

end Grammar

end GrammarLookahead
