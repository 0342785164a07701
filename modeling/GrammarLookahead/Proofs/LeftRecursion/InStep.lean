import GrammarLookahead.Proofs.LeftRecursion.Order
import GrammarLookahead.Proofs.Lookahead.Calm

namespace GrammarLookahead

/-- What lookahead is asked for in place of the task. -/
def Task.inquiry : Task → Inquiry
  | .openings id => .openings id
  | .sequence ids => .sequence ids
  | .branches ids => .branches ids
  | .continuations id => .continuations [id]

/-- The searches that lookahead comes to are calm. Behind an action they come to no call, or do not
leave its group. -/
def Task.Calm (g : Grammar) (o : Context) : Task → Prop
  | .continuations id => Inquiry.All g g.CallFree (.continuations [id]) o ∨
      g.StaysInGroup id ∧ Inquiry.All g g.Calm (.continuations [id]) o
  | task => task.inquiry.All g g.Calm o

/-- Lookahead in the context, which has found the list before, goes in step with the exploration: a
mark of the exploration is on what lookahead has found, or in a rule with a body that has the
property, and so in one that the exploration does not enter any more. -/
structure Follows (g : Grammar) (P : ElementId → Prop) (before : List ElementId) (s : Exploration)
    (o : Context) : Prop where
  earned : o.Earned g before
  begun : ∀ body, P body → Begun g s body
  marks : ∀ id, s.context.Marks id → id ∈ before ∨ g.Within P id

/-- The exploration has led from the context `c` to `d` and lookahead from `o` to `p`, so that marks
are alike after it where they were alike before; nothing in the list is in a rule with a body that
has the property. -/
structure InStep (g : Grammar) (P : ElementId → Prop) (found : List ElementId)
    (c o d p : Context) : Prop where
  avoids : ∀ id ∈ found, ¬ g.Within P id
  marks : ∀ id, (c.Marks id ↔ o.Marks id) → (d.Marks id ↔ p.Marks id)

/-- Lookahead for the task finds the list, and if it comes to no call it leaves the marks that the
exploration leaves. How far lookahead climbs behind an action depends on marks, so there the marks
of the two have to be alike; elsewhere it is enough that neither has a mark on a mandatory element
that is found for the first time. -/
def Task.Agrees (g : Grammar) (task : Task) (s : Exploration) (found : List ElementId)
    (t : Exploration) : Prop :=
  ∀ P before o l p, Follows g P before s o → task.Avoids g P → Finds g task.inquiry o l p →
    g.Undoubled (before ++ l) → task.Calm g o →
    l = found ∧ (task.inquiry.All g g.CallFree o → InStep g P found s.context o t.context p)

variable {g : Grammar} {P : ElementId → Prop} {depth : Nat} {path : List ElementId} {task : Task}
  {s t : Exploration} {id : ElementId} {found before l : List ElementId} {o p : Context}

theorem Explores.marks {a : Option (List ElementId)} (h : Explores g depth path task s a t)
    (ha : a = some found) {k : ElementId} (hk : t.context.Marks k) :
    s.context.Marks k ∨ k ∈ found := by
  induction h generalizing found with
  | revisit | sequenceNone | again | followNone => cases ha
  | leaf | closed | known | sequenceNil | branchesNil | outermost => exact .inl hk
  | sequence _ _ _ _ ih | choice _ _ _ _ ih | action _ _ _ _ ih | called _ _ _ _ _ ih =>
    subst ha
    exact Context.marks_of_handOn (ih rfl) hk
  | sequenceStop _ _ ih | settle _ _ _ _ _ _ _ ih => exact ih ha hk
  | sequenceStep _ _ _ ih ih' | climb _ _ _ _ _ _ _ _ ih ih' =>
    obtain ⟨more, rfl, rfl⟩ := Option.map_eq_some_iff.mp ha
    exact Context.marks_or_mem_append (ih rfl) (ih' rfl hk)
  | branchesCons _ _ ih ih' =>
    obtain ⟨first, rfl, ha⟩ := Option.bind_eq_some_iff.mp ha
    obtain ⟨more, rfl, rfl⟩ := Option.map_eq_some_iff.mp ha
    exact Context.marks_or_mem_append (ih rfl) (ih' rfl hk)

theorem Explores.not_visited (h : Explores g depth path (.openings id) s (some found) t) :
    id ∉ s.visited := by
  generalize ha : some found = a at h
  cases h with
  | revisit => cases ha
  | leaf _ hn | closed _ hn | sequence _ hn | choice _ hn | action _ hn | known _ hn
  | called _ hn => exact hn

theorem Explores.nil_of_closesRule (hg : g.Forest)
    (h : Explores g depth path (.continuations id) s (some found) t) (hclose : g.ClosesRule id)
    (hs : s.context.Faithful g) : found = [] := by
  induction hclose generalizing depth s found t with
  | outermost hga =>
    generalize ha : some found = a at h
    cases h with
    | again | followNone => cases ha
    | outermost => exact Option.some.inj ha
    | settle _ hn | climb _ hn => cases hga.symm.trans hn.answer
  | last hga hafter _ _ _ ih =>
    generalize ha : some found = a at h
    cases h with
    | again | followNone => cases ha
    | outermost => exact Option.some.inj ha
    | settle _ hn _ _ hp hseq hall =>
      cases hga.symm.trans hn.answer
      cases hafter.symm.trans (hp.membersAfter hg)
      cases hseq
      cases hall
    | climb _ hn _ _ hp hseq _ hgroup =>
      cases hga.symm.trans hn.answer
      cases hafter.symm.trans (hp.membersAfter hg)
      cases hseq
      obtain ⟨more, rfl, rfl⟩ := Option.map_eq_some_iff.mp ha.symm
      exact ih hgroup hs

namespace Follows

theorem enter (h : Follows g P before s o) (hv : Visitable g path id s) (hn : id ∉ s.visited) :
    Follows g P before (s.enter id) o where
  earned := h.earned
  begun body hP := (h.begun body hP).advance (hv.advance hn)
  marks := h.marks

theorem after (hg : g.Forest) (h : Follows g P before s o) {i : Inquiry}
    (hf : Finds g i o found p) (hx : Explores g depth path task s (some found) t) :
    Follows g P (before ++ found) t p where
  earned := h.earned.after hf
  begun body hP := (h.begun body hP).advance (hx.advance hg)
  marks k hk := by
    rcases hx.marks rfl hk with hk | hk
    · exact (h.marks k hk).imp_left (List.mem_append_left found)
    · exact .inl (List.mem_append_right before hk)

/-- Neither of the two has a mark on a mandatory element that is found now, if the exploration may
still enter the rule of the element. -/
theorem not_marks (h : Follows g P before s o) (hund : g.Undoubled (before ++ l)) (hid : id ∈ l)
    (hw : (g.written id).isOptional = false) (hin : ¬ g.Within P id) :
    ¬ s.context.Marks id ∧ ¬ o.Marks id := by
  have hbefore := hund.not_mem hid hw
  refine ⟨fun hk => ?_, fun hk => hbefore (h.earned.found id hk)⟩
  exact (h.marks id hk).elim hbefore hin

theorem isOptional_seen (h : Follows g P before s o)
    (hx : Explores g depth path (.openings id) s (some found) t)
    (hund : g.Undoubled (before ++ found)) (htask : Task.Avoids g P (.openings id))
    (ht : Orderly g (Known g) t) (hc : t.context.Faithful g) :
    (t.context.seen g id).isOptional = (g.written id).isOptional := by
  cases hw : (g.written id).isOptional with
  | true => exact (hc.isOptional_seen id).mpr (.inl hw)
  | false =>
    by_contra hopt
    rw [Bool.not_eq_false, hc.isOptional_seen, hw] at hopt
    have hmark := hopt.resolve_left Bool.false_ne_true
    have hleaf := (ht.marks hmark).1
    generalize ha : some found = a at hx
    cases hx with
    | revisit => cases ha
    | leaf =>
      cases ha
      have hin := htask id List.mem_cons_self
      exact (h.not_marks hund (List.mem_singleton_self id) hw hin).1 hmark
    | closed _ _ hp | sequence _ _ hp | choice _ _ hp | action _ _ hp | known _ _ hp
    | called _ _ hp => cases hp.unique hleaf

theorem skips_iff (h : Follows g P before s o) (hund : g.Undoubled (before ++ found))
    (hstep : InStep g P found s.context o t.context p) (hc : t.context.Faithful g)
    (hp : p.Faithful g) :
    (found.all fun id => (t.context.seen g id).isOptional) = true ↔ p.Skips g found := by
  rw [List.all_eq_true]
  refine forall₂_congr fun id hid => ?_
  rw [hc.isOptional_seen, hp.isOptional_seen]
  cases hw : (g.written id).isOptional with
  | true => simp
  | false =>
    obtain ⟨hs, ho⟩ := h.not_marks hund hid hw (hstep.avoids id hid)
    rw [hstep.marks id (iff_of_false hs ho)]

theorem ahead_cases (hg : g.Forest) (h : Follows g P before s o) (hc : s.context.Faithful g)
    {member group : ElementId} {ahead after : List ElementId}
    (hn : g.NearestGroup id member (some group))
    (hr : (s.context.seen g id).isRepeatable = false)
    (hrm : (s.context.seen g member).isRepeatable = false)
    (hp : g.Plays group (.sequence (ahead ++ member :: after)))
    (hfinds : Finds g (.continuations [id]) o l p) {Q : ElementId × Context → Prop}
    (hall : Inquiry.All g Q (.continuations [id]) o) :
    ∃ l' p', Finds g (.sequence after) o l' p' ∧ Inquiry.All g Q (.sequence after) o ∧
      (¬ p'.Skips g l' ∧ l = l' ∧ p = p' ∨
        p'.Skips g l' ∧ ∃ l'', Finds g (.continuations [group]) p' l'' p ∧
          Inquiry.All g Q (.continuations [group]) p' ∧ l = l' ++ l'') := by
  rw [hc.isRepeatable_seen, ← h.earned.faithful.isRepeatable_seen] at hr hrm
  exact hfinds.ahead_cases hn.answer (hp.membersAfter hg) hr hrm hall

theorem ahead_of_stays (hg : g.Forest) (h : Follows g P before s o) (hc : s.context.Faithful g)
    {member group : ElementId} {ahead after : List ElementId}
    (hn : g.NearestGroup id member (some group))
    (hr : (s.context.seen g id).isRepeatable = false)
    (hrm : (s.context.seen g member).isRepeatable = false)
    (hp : g.Plays group (.sequence (ahead ++ member :: after)))
    (hfinds : Finds g (.continuations [id]) o l p) (hstays : g.StaysInGroup id)
    {Q : ElementId × Context → Prop} (hall : Inquiry.All g Q (.continuations [id]) o) :
    ∃ p', Finds g (.sequence after) o l p' ∧ Inquiry.All g Q (.sequence after) o := by
  obtain ⟨l', p', hseq, hall', hcases⟩ := h.ahead_cases hg hc hn hr hrm hp hfinds hall
  refine ⟨p', ?_, hall'⟩
  rcases hcases with ⟨-, rfl, -⟩ | ⟨-, l'', hgroup, -, rfl⟩
  · exact hseq
  · have hclose := hstays _ _ hn.answer
    obtain ⟨rfl, -⟩ := hgroup.nil_of_closesRule hclose (hseq.faithful h.earned.faithful)
    rwa [List.append_nil]

end Follows

namespace InStep

variable {c d e q : Context} {more : List ElementId}

theorem nil : InStep g P [] c o c o where
  avoids _ hid := absurd hid List.not_mem_nil
  marks _ hiff := hiff

theorem append (h : InStep g P found c o d p) (h' : InStep g P more d p e q) :
    InStep g P (found ++ more) c o e q where
  avoids id hid := (List.mem_append.mp hid).elim (h.avoids id) (h'.avoids id)
  marks id hiff := h'.marks id (h.marks id hiff)

theorem handOn (h : InStep g P found c o d p) (around : Cardinality) :
    InStep g P found c o (d.handOn g around found) (p.handOn g around found) where
  avoids := h.avoids
  marks id hiff := Context.marks_handOn.trans
    ((or_congr_left (h.marks id hiff)).trans Context.marks_handOn.symm)

end InStep

namespace Task.Agrees

variable {u : Exploration} {more rest : List ElementId}

theorem leaf (hp : g.Plays id .leaf) : Task.Agrees g (.openings id) s [id] (s.enter id) := by
  intro P before o l p _ htask hfinds _ _
  cases hfinds with
  | leaf => exact ⟨rfl, fun _ => ⟨htask, fun _ hiff => hiff⟩⟩
  | closed hp' => cases hp.unique hp'
  | unwrap hu => exact absurd hp hu.not_leaf

theorem closed (hp : g.Plays id .closed) : Task.Agrees g (.openings id) s [] (s.enter id) := by
  intro P before o l p _ _ hfinds _ _
  cases hfinds with
  | leaf hp' => cases hp.unique hp'
  | closed => exact ⟨rfl, fun _ => .nil⟩
  | unwrap hu => exact absurd hp hu.not_closed

theorem unwrap {inner : Task} (h : inner.Agrees g (s.enter id) found t)
    (hv : Visitable g path id s) (hn : id ∉ s.visited) (hu : g.Unwraps id inner.inquiry)
    (havoid : ∀ P : ElementId → Prop, (∀ body, P body → Begun g s body) →
      Task.Avoids g P (.openings id) → inner.Avoids g P)
    (hcalm : ∀ o, Inquiry.All g g.Calm (.openings id) o → inner.Calm g o) :
    Task.Agrees g (.openings id) s found (t.handOn g (g.written id) (some found)) := by
  intro P before o l p hf htask hfinds hund hc
  cases hfinds with
  | leaf hp => exact absurd hp hu.not_leaf
  | closed hp => exact absurd hp hu.not_closed
  | unwrap hu' hfinds =>
    cases hu.unique hu'
    obtain ⟨rfl, hstep⟩ :=
      h P before o _ _ (hf.enter hv hn) (havoid P hf.begun htask) hfinds hund (hcalm o hc)
    exact ⟨rfl, fun hfree => (hstep (hfree.unwrap Grammar.CallFree.opens hu)).handOn _⟩

theorem sequenceNil : Task.Agrees g (.sequence []) s [] s := by
  intro P before o l p _ _ hfinds _ _
  cases hfinds
  exact ⟨rfl, fun _ => .nil⟩

theorem branchesNil : Task.Agrees g (.branches []) s [] s := by
  intro P before o l p _ _ hfinds _ _
  cases hfinds
  exact ⟨rfl, fun _ => .nil⟩

theorem sequenceStop (h : Task.Agrees g (.openings id) s found t)
    (hx : Explores g depth path (.openings id) s (some found) t) (ht : Orderly g (Known g) t)
    (hc : t.context.Faithful g) (hstop : (t.context.seen g id).isOptional = false) :
    Task.Agrees g (.sequence (id :: rest)) s found t := by
  intro P before o l p hf htask hfinds hund hcalm
  have hhead := htask.of_mem List.mem_cons_self
  have hcalm' := Inquiry.All.sequence_head hcalm
  cases hfinds with
  | sequenceStop hfinds =>
    obtain ⟨rfl, hstep⟩ := h P before o _ _ hf hhead hfinds hund hcalm'
    exact ⟨rfl, fun hfree => hstep hfree.sequence_head⟩
  | sequenceStep hfinds ho =>
    obtain ⟨hund', -⟩ := hund.of_append
    obtain ⟨rfl, -⟩ := h P before o _ _ hf hhead hfinds hund' hcalm'
    rw [hf.isOptional_seen hx hund' hhead ht hc] at hstop
    rw [hfinds.isOptional_seen_of_undoubled hf.earned hund', hstop] at ho
    cases ho

theorem sequenceStep (hg : g.Forest) (h : Task.Agrees g (.openings id) s found t)
    (h' : Task.Agrees g (.sequence rest) t more u)
    (hx : Explores g depth path (.openings id) s (some found) t) (ht : Orderly g (Known g) t)
    (hc : t.context.Faithful g) (hstep : (t.context.seen g id).isOptional = true) :
    Task.Agrees g (.sequence (id :: rest)) s (found ++ more) u := by
  intro P before o l p hf htask hfinds hund hcalm
  have hhead := htask.of_mem List.mem_cons_self
  have hcalm' := Inquiry.All.sequence_head hcalm
  cases hfinds with
  | sequenceStop hfinds ho =>
    obtain ⟨rfl, -⟩ := h P before o _ _ hf hhead hfinds hund hcalm'
    rw [hf.isOptional_seen hx hund hhead ht hc] at hstep
    rw [hfinds.isOptional_seen_of_undoubled hf.earned hund, hstep] at ho
    cases ho
  | sequenceStep hfinds ho hrest =>
    obtain ⟨hund', hund''⟩ := hund.of_append
    obtain ⟨rfl, hin⟩ := h P before o _ _ hf hhead hfinds hund' hcalm'
    obtain ⟨rfl, hin'⟩ := h' P _ _ _ _ (hf.after hg hfinds hx)
      (htask.of_subset (List.subset_cons_self _ _)) hrest hund''
      (Inquiry.All.sequence_tail hcalm hfinds ho)
    exact ⟨rfl, fun hfree => (hin hfree.sequence_head).append
      (hin' (hfree.sequence_tail hfinds ho))⟩

theorem branchesCons (hg : g.Forest) (h : Task.Agrees g (.openings id) s found t)
    (h' : Task.Agrees g (.branches rest) t more u)
    (hx : Explores g depth path (.openings id) s (some found) t) :
    Task.Agrees g (.branches (id :: rest)) s (found ++ more) u := by
  intro P before o l p hf htask hfinds hund hcalm
  have hhead := htask.of_mem List.mem_cons_self
  cases hfinds with
  | branchesCons hfinds hrest =>
    obtain ⟨hund', hund''⟩ := hund.of_append
    obtain ⟨rfl, hin⟩ := h P before o _ _ hf hhead hfinds hund' (Inquiry.All.branches_head hcalm)
    obtain ⟨rfl, hin'⟩ := h' P _ _ _ _ (hf.after hg hfinds hx)
      (htask.of_subset (List.subset_cons_self _ _)) hrest hund''
      (Inquiry.All.branches_tail hcalm hfinds)
    exact ⟨rfl, fun hfree => (hin hfree.branches_head).append (hin' (hfree.branches_tail hfinds))⟩

variable {member group : ElementId} {ahead after : List ElementId}

theorem outermost (hc : s.context.Faithful g) (hn : g.NearestGroup id member none)
    (hr : (s.context.seen g id).isRepeatable = false)
    (hrm : (s.context.seen g member).isRepeatable = false) :
    Task.Agrees g (.continuations id) s [] s := by
  intro P before o l p hf _ hfinds _ _
  rw [hc.isRepeatable_seen, ← hf.earned.faithful.isRepeatable_seen] at hr hrm
  obtain ⟨rfl, rfl⟩ := hfinds.continuations_nil hn.answer hr hrm
  exact ⟨rfl, fun _ => .nil⟩

/-- Both stay in the group, since not all of what is found there may be skipped. -/
theorem settle (hg : g.Forest) (h : Task.Agrees g (.sequence after) s found t)
    (hc : s.context.Faithful g) (ht : t.context.Faithful g)
    (hn : g.NearestGroup id member (some group))
    (hr : (s.context.seen g id).isRepeatable = false)
    (hrm : (s.context.seen g member).isRepeatable = false)
    (hp : g.Plays group (.sequence (ahead ++ member :: after)))
    (hsettle : (found.all fun id => (t.context.seen g id).isOptional) = false) :
    Task.Agrees g (.continuations id) s found t := by
  intro P before o l p hf htask hfinds hund hcalm
  have htask' := htask.following hg hn hp
  have hstep : Inquiry.All g g.CallFree (.continuations [id]) o →
      l = found ∧ InStep g P found s.context o t.context p := by
    intro hfree
    obtain ⟨l', p', hseq, hfree', hcases⟩ := hf.ahead_cases hg hc hn hr hrm hp hfinds hfree
    have hcalm' := fun f q hcomes => (hfree' f q hcomes).calm
    rcases hcases with ⟨-, rfl, rfl⟩ | ⟨hskips, l'', -, -, rfl⟩
    · obtain ⟨rfl, hin⟩ := h P before o _ _ hf htask' hseq hund hcalm'
      exact ⟨rfl, hin hfree'⟩
    · obtain ⟨hund', -⟩ := hund.of_append
      obtain ⟨rfl, hin⟩ := h P before o _ _ hf htask' hseq hund' hcalm'
      have hp' := hseq.faithful hf.earned.faithful
      rw [(hf.skips_iff hund' (hin hfree') ht hp').mpr hskips] at hsettle
      cases hsettle
  refine ⟨?_, fun hfree => (hstep hfree).2⟩
  rcases hcalm with hfree | ⟨hstays, hcalm⟩
  · exact (hstep hfree).1
  · obtain ⟨p', hseq, hcalm'⟩ := hf.ahead_of_stays hg hc hn hr hrm hp hfinds hstays hcalm
    exact (h P before o _ _ hf htask' hseq hund hcalm').1

/-- Both climb, since all that is found in the group may be skipped; where nothing comes behind the
group, it does not matter whether lookahead does. -/
theorem climb (hg : g.Forest) (h : Task.Agrees g (.sequence after) s found t)
    (h' : Task.Agrees g (.continuations group) t more u)
    (hx : Explores g depth path (.sequence after) s (some found) t)
    (hx' : Explores g depth path (.continuations group) t (some more) u)
    (hc : s.context.Faithful g) (hn : g.NearestGroup id member (some group))
    (hr : (s.context.seen g id).isRepeatable = false)
    (hrm : (s.context.seen g member).isRepeatable = false)
    (hp : g.Plays group (.sequence (ahead ++ member :: after)))
    (hall : (found.all fun id => (t.context.seen g id).isOptional) = true) :
    Task.Agrees g (.continuations id) s (found ++ more) u := by
  intro P before o l p hf htask hfinds hund hcalm
  have htask' := htask.following hg hn hp
  have hstep : Inquiry.All g g.CallFree (.continuations [id]) o →
      l = found ++ more ∧ InStep g P (found ++ more) s.context o u.context p := by
    intro hfree
    obtain ⟨l', p', hseq, hfree', hcases⟩ := hf.ahead_cases hg hc hn hr hrm hp hfinds hfree
    have hcalm' := fun f q hcomes => (hfree' f q hcomes).calm
    have hp' := hseq.faithful hf.earned.faithful
    rcases hcases with ⟨hnot, rfl, rfl⟩ | ⟨-, l'', hmore, hfree'', rfl⟩
    · obtain ⟨rfl, hin⟩ := h P before o _ _ hf htask' hseq hund hcalm'
      exact absurd ((hf.skips_iff hund (hin hfree') (hx.faithful hc) hp').mp hall) hnot
    · obtain ⟨hund', hund''⟩ := hund.of_append
      obtain ⟨rfl, hin⟩ := h P before o _ _ hf htask' hseq hund' hcalm'
      obtain ⟨rfl, hin'⟩ := h' P _ _ _ _ (hf.after hg hseq hx) (htask.around hn hp) hmore hund''
        (.inl hfree'')
      exact ⟨rfl, (hin hfree').append (hin' hfree'')⟩
  refine ⟨?_, fun hfree => (hstep hfree).2⟩
  rcases hcalm with hfree | ⟨hstays, hcalm⟩
  · exact (hstep hfree).1
  · obtain ⟨p', hseq, hcalm'⟩ := hf.ahead_of_stays hg hc hn hr hrm hp hfinds hstays hcalm
    obtain rfl := hx'.nil_of_closesRule hg (hstays _ _ hn.answer) (hx.faithful hc)
    rw [List.append_nil]
    exact (h P before o _ _ hf htask' hseq hund hcalm').1

end Task.Agrees

end GrammarLookahead
