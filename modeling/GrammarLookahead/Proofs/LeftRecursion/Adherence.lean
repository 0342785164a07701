import GrammarLookahead.Proofs.LeftRecursion.Guard
import GrammarLookahead.Proofs.LeftRecursion.Total
import GrammarLookahead.Proofs.LeftRecursion.WriteOnce

namespace GrammarLookahead

variable {g : Grammar}

/-- Verdicts list elements that are matched by themselves. -/
def Verdicts.Listing (g : Grammar) (memo : Verdicts) : Prop :=
  ∀ (rule : RuleId) openings, memo[rule]? = some (.acyclic openings) →
    ∀ id ∈ openings, g.Plays id .leaf

namespace Verdicts

theorem listing_empty : Listing g ∅ := by
  intro rule openings h
  simp at h

theorem Listing.openings {memo : Verdicts} (h : memo.Listing g) {rule : RuleId} {v : Verdict}
    (hv : memo[rule]? = some v) {found : List ElementId} (hf : v.openings? = some found) :
    ∀ id ∈ found, g.Plays id .leaf := by
  cases v with
  | cyclic => cases hf
  | acyclic openings => exact Option.some.inj hf ▸ h rule openings hv

theorem Listing.insert {memo : Verdicts} (h : memo.Listing g) {rule : RuleId}
    {a : Option (List ElementId)} (ha : ∀ found, a = some found → ∀ id ∈ found, g.Plays id .leaf) :
    Listing g (memo.insert rule (.ofOpenings? a)) := by
  intro other openings ho
  rcases acyclic_of_insert ho with ⟨-, hanswer⟩ | ho
  · exact ha openings hanswer
  · exact h other openings ho

end Verdicts

/-- An exploration finds elements that are matched by themselves. -/
theorem Explores.leaves {depth path task s a t} (h : Explores g depth path task s a t)
    (hs : s.memo.Listing g) :
    (∀ found, a = some found → ∀ id ∈ found, g.Plays id .leaf) ∧ t.memo.Listing g := by
  have hmap : ∀ {found : List ElementId} {b : Option (List ElementId)},
      (∀ id ∈ found, g.Plays id .leaf) →
      (∀ found, b = some found → ∀ id ∈ found, g.Plays id .leaf) →
      ∀ all, b.map (found ++ ·) = some all → ∀ id ∈ all, g.Plays id .leaf := by
    intro found b hf hb all hall id hid
    obtain ⟨more, rfl, rfl⟩ := Option.map_eq_some_iff.mp hall
    exact (List.mem_append.mp hid).elim (hf id) (hb more rfl id)
  have hnil : ∀ found, some ([] : List ElementId) = some found →
      ∀ id ∈ found, g.Plays id .leaf := by
    intro _ heq id hid
    cases heq
    cases hid
  have hnone : ∀ found, (none : Option (List ElementId)) = some found →
      ∀ id ∈ found, g.Plays id .leaf := by
    intro _ heq
    cases heq
  induction h with
  | revisit => exact ⟨hnone, hs⟩
  | leaf _ _ hp =>
    refine ⟨?_, hs⟩
    intro _ heq id hid
    cases heq
    rwa [List.mem_singleton.mp hid]
  | closed => exact ⟨hnil, hs⟩
  | sequence _ _ _ _ ih => exact ih hs
  | choice _ _ _ _ ih => exact ih hs
  | action _ _ _ _ ih => exact ih hs
  | known _ _ _ hm => exact ⟨fun found hf => hs.openings hm hf, hs⟩
  | called _ _ _ _ _ ih =>
    obtain ⟨ha, ht⟩ := ih hs
    exact ⟨ha, ht.insert ha⟩
  | sequenceNil => exact ⟨hnil, hs⟩
  | sequenceNone _ ih => exact ih hs
  | sequenceStop _ _ ih => exact ih hs
  | sequenceStep _ _ _ ih ih' =>
    obtain ⟨hf, ht⟩ := ih hs
    obtain ⟨hb, hu⟩ := ih' ht
    exact ⟨hmap (hf _ rfl) hb, hu⟩
  | branchesNil => exact ⟨hnil, hs⟩
  | branchesCons _ _ ih ih' =>
    obtain ⟨ha, ht⟩ := ih hs
    obtain ⟨hb, hu⟩ := ih' ht
    refine ⟨?_, hu⟩
    intro all hall
    obtain ⟨found, hf, hall⟩ := Option.bind_eq_some_iff.mp hall
    exact hmap (ha found hf) hb all hall
  | again => exact ⟨hnone, hs⟩
  | outermost => exact ⟨hnil, hs⟩
  | followNone _ _ _ _ _ _ ih => exact ih hs
  | settle _ _ _ _ _ _ _ ih => exact ih hs
  | climb _ _ _ _ _ _ _ _ ih ih' =>
    obtain ⟨hf, ht⟩ := ih hs
    obtain ⟨hb, hu⟩ := ih' ht
    exact ⟨hmap (hf _ rfl) hb, hu⟩

theorem Explores.faithful {depth path task s a t} (h : Explores g depth path task s a t)
    (hs : s.context.Faithful g) : t.context.Faithful g := by
  induction h with
  | revisit => exact hs
  | leaf => exact hs
  | closed => exact hs
  | sequence _ _ _ _ ih => exact (ih hs).handOn _ _
  | choice _ _ _ _ ih => exact (ih hs).handOn _ _
  | action _ _ _ _ ih => exact (ih hs).handOn _ _
  | known => exact hs
  | called _ _ _ _ _ ih => exact (ih hs).handOn _ _
  | sequenceNil => exact hs
  | sequenceNone _ ih => exact ih hs
  | sequenceStop _ _ ih => exact ih hs
  | sequenceStep _ _ _ ih ih' => exact ih' (ih hs)
  | branchesNil => exact hs
  | branchesCons _ _ ih ih' => exact ih' (ih hs)
  | again => exact hs
  | outermost => exact hs
  | followNone _ _ _ _ _ _ ih => exact ih hs
  | settle _ _ _ _ _ _ _ ih => exact ih hs
  | climb _ _ _ _ _ _ _ _ ih ih' => exact ih' (ih hs)

theorem Explores.issued {depth path id s found t}
    (h : Explores g depth path (.openings id) s (some found) t) : g.Issued id := by
  generalize ha : some found = a at h
  cases h with
  | revisit => cases ha
  | leaf _ _ hp => exact hp.issued
  | closed _ _ hp => exact hp.issued
  | sequence _ _ hp => exact hp.issued
  | choice _ _ hp => exact hp.issued
  | action _ _ hp => exact hp.issued
  | known _ _ hp => exact hp.issued
  | called _ _ hp => exact hp.issued

namespace Search

theorem branches_singleton (explore : ElementId → Search (List ElementId)) (id : ElementId) :
    branches explore [id] = explore id := by
  apply OptionT.ext
  apply StateT.ext
  intro s
  cases he : (explore id).run.run s with
  | error e =>
    rw [branches, attempt, OptionT.run_bind, Option.elimM, StateT.run_bind, OptionT.run_lift,
      StateT.run_bind, he]
    rfl
  | ok r =>
    obtain ⟨a, t⟩ := r
    rw [run_branches_cons he run_branches_nil]
    cases a <;> simp

theorem branches_toList (explore : ElementId → Search (List ElementId)) (id? : Option ElementId) :
    branches explore id?.toList = id?.elim (pure []) explore := by
  cases id? with
  | none => rfl
  | some id => exact branches_singleton explore id

end Search

namespace Grammar

/-- The exploration of an element that plays the role, once it has been entered. -/
def explorePlaying (g : Grammar) (guard : Guard) (keep : Keeper) (depth : Nat)
    (path : List ElementId) (id : ElementId) : Role → Search (List ElementId)
  | .leaf => pure [id]
  | .closed => pure []
  | .sequence members => inheriting g (g.written id)
      (scanSequence g (g.exploreOpeningsBy guard keep depth (id :: path)) members)
  | .choice ids => inheriting g (g.written id)
      (Search.branches (g.exploreOpeningsBy guard keep depth (id :: path)) ids)
  | .action => inheriting g (g.written id)
      (Search.forgetting (g.exploreContinuationsBy guard keep depth (id :: path) id))
  | .call rule body? => Search.memoizedBy keep rule <| inheriting g (g.written id)
      (Search.branches (g.exploreOpeningsBy guard keep depth (id :: path)) body?.toList)

/-- An element that its guard lets pass is explored as its role says. -/
theorem run_openingsBy {guard : Guard} {keep : Keeper} {depth : Nat} {path : List ElementId}
    {id : ElementId} {s s' t t' : Exploration} {a : Option (List ElementId)} {role : Role}
    (hp : g.Plays id role)
    (hguard : ∀ explore : Search (List ElementId), explore.run.run s' = .ok (a, t') →
      (guard path id explore).run.run s = .ok (a, t))
    (h : (g.explorePlaying guard keep depth path id role).run.run s' = .ok (a, t')) :
    (g.exploreOpeningsBy guard keep (depth + 1) path id).run.run s = .ok (a, t) := by
  obtain ⟨e, he, rfl⟩ := hp
  have hlift := Search.run_lift (s := s') (element_eq_ok_iff.mpr he)
  rw [exploreOpeningsBy]
  apply hguard
  rw [Search.run_bind_some hlift]
  unfold explorePlaying at h
  rw [written_of he] at h
  cases hk : e.kind with
  | assignment feature operator terminal =>
    simpa only [hk, roleOf, Search.branches_singleton] using h
  | ruleCall name target arguments =>
    have hcallee := Search.run_lift (s := s') (callee_eq he hk)
    simp only [hk, roleOf] at h
    rw [Search.run_bind_some hcallee]
    cases target with
    | none => exact h
    | some target =>
      cases ht : g.parserRule? target with
      | none => simpa [ht] using h
      | some rule => simpa [ht, Search.branches_toList] using h
  | _ => simpa only [hk, roleOf] using h

end Grammar

/-- The visited elements as a guard has them that goes by the path, by what was visited, or by
both. -/
abbrev Scope := List ElementId → Std.ExtTreeSet ElementId → Std.ExtTreeSet ElementId

/-- The state of a search at the end of a path, with the visited elements of a guard. -/
def Exploration.within (scope : Scope) (path : List ElementId) (s : Exploration) : Exploration :=
  { s with visited := scope path s.visited }

/-- A guard gives up at a visited element that is on the path, and enters an element that is neither
visited nor on the path. -/
structure Guard.Adheres (guard : Guard) (scope : Scope) : Prop where
  again : ∀ {path id} {s : Exploration} {explore}, id ∈ path → id ∈ s.visited →
    (guard path id explore).run.run (s.within scope path) = .ok (none, s.within scope path)
  enter : ∀ {path id} {s t : Exploration} {a explore}, id ∉ path → id ∉ s.visited →
    explore.run.run ((s.enter id).within scope (id :: path)) =
      .ok (a, t.within scope (id :: path)) →
    (guard path id explore).run.run (s.within scope path) = .ok (a, t.within scope path)

namespace Guard

/-- What was visited, whatever the path. -/
def byVisits : Scope := fun _ visited => visited

/-- The elements of the path, whatever was visited. -/
def byPath : Scope := fun path _ => path.foldr (fun id visited => visited.insert id) ∅

theorem mem_byPath {path : List ElementId} {visited : Std.ExtTreeSet ElementId} {id : ElementId} :
    id ∈ byPath path visited ↔ id ∈ path := by
  induction path with
  | nil => simp [byPath]
  | cons other path ih =>
    rw [byPath, List.foldr_cons, Std.ExtTreeSet.mem_insert, List.mem_cons]
    rw [byPath] at ih
    rw [ih, Std.LawfulEqOrd.compare_eq_iff_eq, eq_comm]

theorem shared_adheres : Adheres shared byVisits where
  again _ hv := Search.run_bind_none (Search.run_visit_of_mem hv)
  enter _ hn h := (Search.run_bind_some (Search.run_visit_of_not_mem hn)).trans h

theorem audited_adheres (objection : Fault) : Adheres (audited objection) byVisits where
  again hp hv := by
    rw [audited, Search.run_bind_some Search.run_getThe, if_neg (by simp [hp])]
    exact Search.run_bind_none (Search.run_visit_of_mem hv)
  enter _ hn h := by
    rw [audited, Search.run_bind_some Search.run_getThe, if_neg (fun hv => hn hv.1)]
    exact (Search.run_bind_some (Search.run_visit_of_not_mem hn)).trans h

theorem erase_byPath {path : List ElementId} {visited visited' : Std.ExtTreeSet ElementId}
    {id : ElementId} (hp : id ∉ path) :
    (byPath (id :: path) visited').erase id = byPath path visited := by
  apply Std.ExtTreeSet.ext_mem
  intro other
  rw [Std.ExtTreeSet.mem_erase, mem_byPath, mem_byPath, List.mem_cons]
  constructor
  · intro h
    obtain ⟨hne, rfl | ho⟩ := h
    · simp at hne
    · exact ho
  · intro ho
    refine ⟨?_, .inr ho⟩
    intro heq
    exact hp (Std.LawfulEqOrd.eq_of_compare heq ▸ ho)

theorem pathScoped_adheres : Adheres pathScoped byPath where
  again {path id s explore} hp _ := by
    have hv : id ∈ byPath path s.visited := mem_byPath.mpr hp
    exact Search.run_bind_none (Search.run_visit_of_mem hv)
  enter {path id s t a explore} hp _ h := by
    have henter : (s.within byPath path).enter id = (s.enter id).within byPath (id :: path) := rfl
    have hn : id ∉ byPath path s.visited := fun hv => hp (mem_byPath.mp hv)
    have herase : (byPath (id :: path) t.visited).erase id = byPath path t.visited :=
      erase_byPath hp
    rw [pathScoped, Search.run_bind_some (Search.run_visit_of_not_mem hn), henter,
      Search.run_bind_some (Search.run_attempt h), Search.run_bind_some Search.run_modifyThe]
    simp only [Exploration.within, herase]
    rfl

end Guard

/-- The search for a task at the end of a path, under a guard and with a keeper. -/
def Task.search (g : Grammar) (guard : Guard) (keep : Keeper) (depth : Nat)
    (path : List ElementId) : Task → Search (List ElementId)
  | .openings id => g.exploreOpeningsBy guard keep depth path id
  | .sequence ids => scanSequence g (g.exploreOpeningsBy guard keep depth path) ids
  | .branches ids => Search.branches (g.exploreOpeningsBy guard keep depth path) ids
  | .continuations id => g.exploreContinuationsBy guard keep depth path id

theorem Positioned.issued (hg : g.Forest) {path : List ElementId} {id member : ElementId}
    {group? : Option ElementId} {s : Exploration} (hpos : Positioned g path id s)
    (hm : g.NearestGroup id member group?) : g.Issued id ∧ g.Issued member := by
  have hin := hpos.coherent.inRule id hpos.mem
  exact ⟨hg.isSome_of_inRule hin, hg.isSome_of_inRule (hg.inRule_enclosing hin hm.encloses)⟩

theorem Positioned.run_follow (hg : g.Forest) {guard : Guard} {keep : Keeper} {scope : Scope}
    {depth : Nat} {path : List ElementId} {id member group : ElementId}
    {before after : List ElementId} {s : Exploration} (hpos : Positioned g path id s)
    (hm : g.NearestGroup id member (some group)) (hr : (s.context.seen g id).isRepeatable = false)
    (hrm : (s.context.seen g member).isRepeatable = false)
    (hp : g.Plays group (.sequence (before ++ member :: after))) :
    (g.exploreContinuationsBy guard keep (depth + 1) path id).run.run (s.within scope path) =
      (scanSequence g (g.exploreOpeningsBy guard keep depth path) after >>= fun following =>
        widen g following (g.exploreContinuationsBy guard keep depth path group)).run.run
          (s.within scope path) := by
  obtain ⟨hi, him⟩ := hpos.issued hg hm
  obtain ⟨e, he, hk, -⟩ := hp.children_sequence
  rw [Grammar.exploreContinuationsBy, Search.run_bind_some (Search.run_lift hm.answer)]
  have hnil : (repetitions g (g.exploreOpeningsBy guard keep depth path) id member).run.run
      (s.within scope path) = .ok (some [], s.within scope path) :=
    Search.run_repetitions_nil hi him hr hrm
  exact (Search.run_bind_some hnil).trans
    (Search.run_bind_some (Search.run_lift (hg.membersAfter_eq he hk)))

/-- Searches go by the steps of an exploration, whatever the guard and the keeper: which elements a
guard takes for visited may differ, as long as it gives up at those of the path and enters new ones,
and a keeper has to write only where a rule has no verdict or the same one. -/
theorem Explores.run (hg : g.Forest) {guard : Guard} {keep : Keeper} {scope : Scope}
    (hguard : guard.Adheres scope) (hkeep : keep.Adheres) {depth path task s a t}
    (h : Explores g depth path task s a t) (hs : s.memo.Listing g) :
    (task.search g guard keep depth path).run.run (s.within scope path) =
      .ok (a, t.within scope path) := by
  have hpass : ∀ {depth path id role} {s t : Exploration} {a}, Visitable g path id s →
      id ∉ s.visited → g.Plays id role →
      (g.explorePlaying guard keep depth path id role).run.run
          ((s.enter id).within scope (id :: path)) = .ok (a, t.within scope (id :: path)) →
      (g.exploreOpeningsBy guard keep (depth + 1) path id).run.run (s.within scope path) =
        .ok (a, t.within scope path) := by
    intro depth path id role s t a hv hn hp h
    refine Grammar.run_openingsBy hp (fun explore hx => ?_) h
    exact hguard.enter (fun hpath => hn (hv.coherent.visited _ hpath)) hn hx
  have hissued : ∀ {depth path task} {s t : Exploration} {a}, Explores g depth path task s a t →
      s.memo.Listing g → ∀ found, a = some found → ∀ id ∈ found, g.Issued id :=
    fun h hs found hf id hid => ((h.leaves hs).1 found hf id hid).issued
  induction h with
  | revisit hp hv =>
    rw [Task.search, Grammar.exploreOpeningsBy]
    exact hguard.again hp hv
  | leaf hv hn hp => exact hpass hv hn hp rfl
  | closed hv hn hp => exact hpass hv hn hp rfl
  | sequence hv hn hp h ih =>
    exact hpass hv hn hp (Search.run_inheriting (ih hs) (hissued h hs))
  | choice hv hn hp h ih =>
    exact hpass hv hn hp (Search.run_inheriting (ih hs) (hissued h hs))
  | action hv hn hp h ih =>
    exact hpass hv hn hp (Search.run_inheriting (Search.run_forgetting (ih hs)) (hissued h hs))
  | known hv hn hp hm => exact hpass hv hn hp (Search.run_memoizedBy_of_mem hm)
  | @called _ path id s _ _ _ _ hv hn hp hm h ih =>
    have hwritten := h.written hg (fun body hb => hp.isBody_iff.mpr hb) hm
    exact hpass hv hn hp (Search.run_memoizedBy_of_not_mem
      (s := (s.enter id).within scope (id :: path)) hkeep hm
      (Search.run_inheriting (ih hs) (hissued h hs)) hwritten)
  | sequenceNil => rfl
  | sequenceNone h ih => exact Search.run_scanSequence_none (ih hs)
  | sequenceStop h ho ih => exact Search.run_scanSequence_stop (ih hs) h.issued ho
  | sequenceStep h ho hr ih ih' =>
    exact Search.run_scanSequence_step (ih hs) h.issued ho (ih' (h.leaves hs).2)
  | branchesNil => rfl
  | branchesCons h h' ih ih' => exact Search.run_branches_cons (ih hs) (ih' (h.leaves hs).2)
  | @again depth path id s member _ hpos hm hr =>
    have hgiveUp : ∀ outer ∈ path, (g.exploreOpeningsBy guard keep (depth + 1) path outer).run.run
        (s.within scope path) = .ok (none, s.within scope path) := by
      intro outer hout
      rw [Grammar.exploreOpeningsBy]
      exact hguard.again hout (hpos.coherent.visited outer hout)
    obtain ⟨hi, him⟩ := hpos.issued hg hm
    rw [Task.search, Grammar.exploreContinuationsBy,
      Search.run_bind_some (Search.run_lift hm.answer)]
    exact Search.run_bind_none (Search.run_repetitions_none hi him hr (hgiveUp id hpos.mem)
      (hgiveUp member (hpos.coherent.mem_of_encloses hm.encloses hpos.mem)))
  | outermost hpos hm hr hrm =>
    obtain ⟨hi, him⟩ := hpos.issued hg hm
    rw [Task.search, Grammar.exploreContinuationsBy,
      Search.run_bind_some (Search.run_lift hm.answer)]
    exact Search.run_bind_some (Search.run_repetitions_nil hi him hr hrm)
  | followNone hpos hm hr hrm hp h ih =>
    exact (hpos.run_follow hg hm hr hrm hp).trans (Search.run_bind_none (ih hs))
  | settle hpos hm hr hrm hp h ho ih =>
    rw [Task.search, hpos.run_follow hg hm hr hrm hp]
    exact (Search.run_bind_some (ih hs)).trans
      (Search.run_widen_stop (hissued h hs _ rfl) ho)
  | climb hpos hm hr hrm hp h ho hc ih ih' =>
    rw [Task.search, hpos.run_follow hg hm hr hrm hp]
    exact (Search.run_bind_some (ih hs)).trans
      (Search.run_widen_step (hissued h hs _ rfl) ho (ih' (h.leaves hs).2))

end GrammarLookahead
