import GrammarLookahead.Proofs.LeftRecursion.Marks

namespace GrammarLookahead

namespace Grammar

/-- The elements that can be matched first, as read off the grammar: all that the branches of a
choice start with, and what a sequence starts with up to the first element that may not be
skipped. -/
inductive Lists (g : Grammar) : Task → List ElementId → Prop
  | leaf {id} : g.Plays id .leaf → Lists g (.openings id) [id]
  | closed {id} : g.Plays id .closed → Lists g (.openings id) []
  | sequence {id members l} : g.Plays id (.sequence members) → Lists g (.sequence members) l →
      Lists g (.openings id) l
  | choice {id ids l} : g.Plays id (.choice ids) → Lists g (.branches ids) l →
      Lists g (.openings id) l
  | call {id rule body? l} : g.Plays id (.call rule body?) →
      Lists g (.branches body?.toList) l → Lists g (.openings id) l
  | sequenceNil : Lists g (.sequence []) []
  | sequenceStop {id rest l} : Lists g (.openings id) l → (g.written id).isOptional = false →
      Lists g (.sequence (id :: rest)) l
  | sequenceStep {id rest l l'} : Lists g (.openings id) l → (g.written id).isOptional = true →
      Lists g (.sequence rest) l' → Lists g (.sequence (id :: rest)) (l ++ l')
  | branchesNil : Lists g (.branches []) []
  | branchesCons {id rest l l'} : Lists g (.openings id) l → Lists g (.branches rest) l' →
      Lists g (.branches (id :: rest)) (l ++ l')

/-- A cycle can be reached from the element. -/
def ReachesCycle (g : Grammar) (id : ElementId) : Prop :=
  ∃ cyclic, Relation.ReflTransGen g.Leads id cyclic ∧ Relation.TransGen g.Leads cyclic cyclic

variable {g : Grammar} {task : Task} {l l' : List ElementId}

namespace Lists

theorem unique (h : g.Lists task l) (h' : g.Lists task l') : l = l' := by
  induction h generalizing l' with
  | leaf hp => cases h' with
    | leaf => rfl
    | closed hp' | sequence hp' | choice hp' | call hp' => cases hp.unique hp'
  | closed hp => cases h' with
    | closed => rfl
    | leaf hp' | sequence hp' | choice hp' | call hp' => cases hp.unique hp'
  | sequence hp _ ih => cases h' with
    | sequence hp' h' =>
      cases hp.unique hp'
      exact ih h'
    | leaf hp' | closed hp' | choice hp' | call hp' => cases hp.unique hp'
  | choice hp _ ih => cases h' with
    | choice hp' h' =>
      cases hp.unique hp'
      exact ih h'
    | leaf hp' | closed hp' | sequence hp' | call hp' => cases hp.unique hp'
  | call hp _ ih => cases h' with
    | call hp' h' =>
      cases hp.unique hp'
      exact ih h'
    | leaf hp' | closed hp' | sequence hp' | choice hp' => cases hp.unique hp'
  | sequenceNil => cases h' with
    | sequenceNil => rfl
  | sequenceStop _ ho ih => cases h' with
    | sequenceStop h' => exact ih h'
    | sequenceStep _ ho' => simp [ho] at ho'
  | sequenceStep _ ho _ ih ih' => cases h' with
    | sequenceStop _ ho' => simp [ho] at ho'
    | sequenceStep h' _ hr' => rw [ih h', ih' hr']
  | branchesNil => cases h' with
    | branchesNil => rfl
  | branchesCons _ _ ih ih' => cases h' with
    | branchesCons h' hr' => rw [ih h', ih' hr']

theorem grounded (h : g.Lists task l) : ∀ found, task.LeadsTo g found → g.Grounded found := by
  induction h with
  | leaf hp =>
    intro _ heq
    subst heq
    exact .of_leaf hp
  | closed hp =>
    intro _ heq
    subst heq
    exact .of_closed hp
  | sequence hp _ ih =>
    intro _ heq
    subst heq
    exact .of_sequence hp ih
  | choice hp _ ih =>
    intro _ heq
    subst heq
    exact .of_choice hp ih
  | call hp _ ih =>
    intro _ heq
    subst heq
    exact .of_call hp ih
  | sequenceNil =>
    intro found h
    obtain ⟨before, after, hsplit, -⟩ := h
    simp at hsplit
  | sequenceStop _ ho ih =>
    intro found hl
    rcases Task.leadsTo_cons.mp hl with rfl | ⟨hopt, -⟩
    · exact ih _ rfl
    · simp [ho] at hopt
  | sequenceStep _ _ _ ih ih' =>
    intro found hl
    rcases Task.leadsTo_cons.mp hl with rfl | ⟨-, hl⟩
    · exact ih _ rfl
    · exact ih' found hl
  | branchesNil => exact fun found hl => absurd hl List.not_mem_nil
  | branchesCons _ _ ih ih' =>
    intro found hl
    rcases List.mem_cons.mp hl with rfl | hl
    · exact ih _ rfl
    · exact ih' found hl

end Lists

theorem Grounded.not_reachesCycle {id : ElementId} (h : g.Grounded id) : ¬ g.ReachesCycle id :=
  fun ⟨_, hr, hc⟩ => h.not_cycle hr hc

theorem ReachesCycle.of_leads {id found : ElementId} (hl : g.Leads id found)
    (h : g.ReachesCycle found) : g.ReachesCycle id := by
  obtain ⟨cyclic, hr, hc⟩ := h
  exact ⟨cyclic, .head hl hr, hc⟩

end Grammar

variable {g : Grammar}

/-- The verdict on a rule with the body is right. -/
def Verdict.IsExact (g : Grammar) (body? : Option ElementId) : Verdict → Prop
  | .cyclic => ∃ body ∈ body?, g.ReachesCycle body
  | .acyclic openings => g.Lists (.branches body?.toList) openings

/-- All verdicts are right. -/
def Verdicts.Exact (g : Grammar) (memo : Verdicts) : Prop :=
  ∀ {rule r v}, g.rule? rule = some r → memo[rule]? = some v → v.IsExact g r.body?

/-- The verdicts on rules that lead to no action are right. -/
def Verdicts.ExactOnPlain (g : Grammar) (memo : Verdicts) : Prop :=
  ∀ {rule r v}, g.rule? rule = some r → memo[rule]? = some v → (∀ body ∈ r.body?, g.Plain body) →
    v.IsExact g r.body?

/-- The answer of an exploration for a task is right: a list, or the way to a cycle. -/
def Task.Explained (g : Grammar) (task : Task) : Option (List ElementId) → Prop
  | none => ∃ found, task.LeadsTo g found ∧ g.ReachesCycle found
  | some l => g.Lists task l

/-- What is on the path in rules that lead to no action leads to what the task leads to. -/
def Task.Below (g : Grammar) (path : List ElementId) (task : Task) : Prop :=
  ∀ id ∈ path, g.InPlainRule id → ∀ found, task.LeadsTo g found →
    Relation.TransGen g.Leads id found

theorem Verdict.isExact_ofOpenings? {body? : Option ElementId} {a : Option (List ElementId)}
    (h : Task.Explained g (.branches body?.toList) a) :
    (Verdict.ofOpenings? a).IsExact g body? := by
  cases a with
  | none =>
    obtain ⟨body, hb, hc⟩ := h
    exact ⟨body, Option.mem_toList.mp hb, hc⟩
  | some l => exact h

theorem Verdicts.ExactOnPlain.insert {memo : Verdicts} (h : memo.ExactOnPlain g) {rule : RuleId}
    {r : Rule} {a : Option (List ElementId)} (hr : g.rule? rule = some r)
    (ha : (∀ body ∈ r.body?, g.Plain body) → Task.Explained g (.branches r.body?.toList) a) :
    Verdicts.ExactOnPlain g (memo.insert rule (.ofOpenings? a)) := by
  intro other r' v hr' hv hplain
  rcases cases_of_insert hv with ⟨rfl, rfl⟩ | hv
  · cases hr.symm.trans hr'
    exact Verdict.isExact_ofOpenings? (ha hplain)
  · exact h hr' hv hplain

theorem Task.Below.cons {path : List ElementId} {id : ElementId} {task : Task}
    (h : Task.Below g path (.openings id))
    (hl : ∀ found, task.LeadsTo g found → g.Leads id found) : task.Below g (id :: path) := by
  intro other ho hplain found hf
  rcases List.mem_cons.mp ho with rfl | ho
  · exact .single (hl found hf)
  · exact (h other ho hplain id rfl).tail (hl found hf)

theorem Task.explained_none {id : ElementId} {task : Task}
    (hl : ∀ found, task.LeadsTo g found → g.Leads id found) (h : task.Explained g none) :
    Task.Explained g (.openings id) none := by
  obtain ⟨found, hf, hc⟩ := h
  exact ⟨id, rfl, hc.of_leads (hl found hf)⟩

/-- In rules that lead to no action, an exploration gives up only where a cycle is, and finds the
list otherwise. -/
theorem Explores.exact (hg : g.Forest) {depth path task s a t}
    (h : Explores g depth path task s a t) (htask : task.Direct g)
    (hm : s.memo.Listing g) (hs : Orderly g (Noted g) s) (hc : s.context.Faithful g)
    (he : s.memo.ExactOnPlain g) (hpath : task.Below g path) :
    t.memo.ExactOnPlain g ∧ task.Explained g a := by
  induction h with
  | @revisit _ _ id _ hid _ =>
    exact ⟨he, id, rfl, id, .refl, hpath id hid (htask.direct id rfl).inPlainRule id rfl⟩
  | leaf _ _ hp => exact ⟨he, .leaf hp⟩
  | closed _ _ hp => exact ⟨he, .closed hp⟩
  | @sequence _ _ id _ members a _ hv hn hp h ih =>
    have hl : ∀ found, Task.LeadsTo g (.sequence members) found → g.Leads id found :=
      fun _ => Task.leads_of_sequence hp
    obtain ⟨he', ha⟩ := ih (htask.of_leads hl (by simp)) hm (hs.enter Noted.stable hv hn) hc he
      (hpath.cons hl)
    refine ⟨he', ?_⟩
    cases a with
    | none => exact Task.explained_none hl ha
    | some l => exact .sequence hp ha
  | @choice _ _ id _ ids a _ hv hn hp h ih =>
    have hl : ∀ found, Task.LeadsTo g (.branches ids) found → g.Leads id found :=
      fun _ => Grammar.leads_of_choice hp
    obtain ⟨he', ha⟩ := ih (htask.of_leads hl (by simp)) hm (hs.enter Noted.stable hv hn) hc he
      (hpath.cons hl)
    refine ⟨he', ?_⟩
    cases a with
    | none => exact Task.explained_none hl ha
    | some l => exact .choice hp ha
  | action _ _ hp => exact absurd hp (htask.direct _ rfl).not_action
  | @known _ _ id _ rule body? v _ _ hp hv =>
    obtain ⟨r, hr, rfl⟩ := hp.rule_of_call
    have hplain : ∀ body ∈ r.body?, g.Plain body := fun body hb =>
      ((htask.direct id rfl).leads (Grammar.leads_of_call hp hb)).plain
    have hexact := he hr hv hplain
    refine ⟨he, ?_⟩
    cases v with
    | cyclic =>
      obtain ⟨body, hb, hc⟩ := hexact
      exact ⟨id, rfl, hc.of_leads (Grammar.leads_of_call hp hb)⟩
    | acyclic openings => exact .call hp hexact
  | @called _ _ id _ _ _ a _ hv hn hp _ h ih =>
    obtain ⟨r, hr, rfl⟩ := hp.rule_of_call
    have hl : ∀ found, Task.LeadsTo g (.branches r.body?.toList) found → g.Leads id found :=
      fun _ => Task.leads_of_call hp
    obtain ⟨he', ha⟩ := ih (htask.of_leads hl (by simp)) hm (hs.enter Noted.stable hv hn) hc he
      (hpath.cons hl)
    refine ⟨he'.insert hr fun _ => ha, ?_⟩
    cases a with
    | none => exact Task.explained_none hl ha
    | some l => exact .call hp ha
  | sequenceNil => exact ⟨he, .sequenceNil⟩
  | sequenceNone h ih =>
    obtain ⟨he', found, rfl, hcycle⟩ := ih htask.sequence_head hm hs hc he
      fun other ho hplain found hf => hpath other ho hplain found (Task.leadsTo_cons.mpr (.inl hf))
    exact ⟨he', _, Task.leadsTo_cons.mpr (.inl rfl), hcycle⟩
  | sequenceStop h ho ih =>
    obtain ⟨he', ha⟩ := ih htask.sequence_head hm hs hc he
      fun other ho hplain found hf => hpath other ho hplain found (Task.leadsTo_cons.mpr (.inl hf))
    have hid := (htask.sequence_head.direct _ rfl).inPlainRule
    rw [h.isOptional_seen hid hs (h.knows_direct hg htask.sequence_head hm hc hs).toOrderly hc] at ho
    exact ⟨he', .sequenceStop ha ho⟩
  | @sequenceStep _ _ id rest _ _ _ b _ h ho _ ih ih' =>
    obtain ⟨he', ha⟩ := ih htask.sequence_head hm hs hc he
      fun other ho hplain found hf => hpath other ho hplain found (Task.leadsTo_cons.mpr (.inl hf))
    have hid := (htask.sequence_head.direct _ rfl).inPlainRule
    have ht := (h.knows_direct hg htask.sequence_head hm hc hs).toOrderly
    rw [h.isOptional_seen hid hs ht hc] at ho
    obtain ⟨he'', hb⟩ := ih' (htask.sequence_tail ho) (h.leaves hm).2 ht (h.faithful hc) he'
      fun other ho' hplain found hf =>
        hpath other ho' hplain found (Task.leadsTo_cons.mpr (.inr ⟨ho, hf⟩))
    refine ⟨he'', ?_⟩
    cases b with
    | none =>
      obtain ⟨found, hf, hcycle⟩ := hb
      exact ⟨found, Task.leadsTo_cons.mpr (.inr ⟨ho, hf⟩), hcycle⟩
    | some l => exact .sequenceStep ha ho hb
  | branchesNil => exact ⟨he, .branchesNil⟩
  | @branchesCons _ _ id rest _ a _ b _ h _ ih ih' =>
    obtain ⟨he', ha⟩ := ih htask.branches_head hm hs hc he
      fun other ho hplain found hf => hpath other ho hplain found (hf ▸ List.mem_cons_self)
    have ht := (h.knows_direct hg htask.branches_head hm hc hs).toOrderly
    obtain ⟨he'', hb⟩ := ih' htask.branches_tail (h.leaves hm).2 ht (h.faithful hc) he'
      fun other ho hplain found hf => hpath other ho hplain found (List.mem_cons_of_mem _ hf)
    refine ⟨he'', ?_⟩
    cases a with
    | none =>
      obtain ⟨found, rfl, hcycle⟩ := ha
      exact ⟨_, List.mem_cons_self, hcycle⟩
    | some l =>
      cases b with
      | none =>
        obtain ⟨found, hf, hcycle⟩ := hb
        exact ⟨found, List.mem_cons_of_mem _ hf, hcycle⟩
      | some l' => exact .branchesCons ha hb
  | _ => exact absurd rfl (htask.ne_continuations _)

end GrammarLookahead
