import GrammarLookahead.Proofs.Construction
import GrammarLookahead.Proofs.LeftRecursion.Survey

namespace GrammarLookahead

variable {g : Grammar} {memo memo' : Verdicts} {rules : List (RuleId × ParserRule)}

/-- Only parser rules have a verdict. -/
def Verdicts.OnParserRules (g : Grammar) (memo : Verdicts) : Prop :=
  ∀ id ∈ memo, ∃ rule, g.parserRule? id = some rule

theorem Verdicts.OnParserRules.insert (h : memo.OnParserRules g) {id : RuleId} {rule : ParserRule}
    (hrule : g.parserRule? id = some rule) (v : Verdict) :
    Verdicts.OnParserRules g (memo.insert id v) := by
  intro other hother
  obtain ⟨w, hw⟩ := mem_memo_iff.mp hother
  rcases Verdicts.cases_of_insert hw with ⟨rfl, -⟩ | hw
  · exact ⟨rule, hrule⟩
  · exact h other (mem_memo_iff.mpr ⟨w, hw⟩)

theorem Explores.onParserRules {depth path task s a t} (h : Explores g depth path task s a t)
    (hs : s.memo.OnParserRules g) : t.memo.OnParserRules g := by
  refine h.memo_preserves (P := Verdicts.OnParserRules g) (fun hp _ hm => ?_) hs
  obtain ⟨_, -, hrule, -⟩ := hp.callee_of_call
  exact hm.insert hrule _

namespace Surveys

theorem onParserRules (h : Surveys g rules memo memo') (hrules : rules ⊆ g.parserRules)
    (hm : memo.OnParserRules g) : memo'.OnParserRules g :=
  h.invariant hrules (fun hm hid _ hx =>
    (hx.onParserRules hm).insert (Grammar.mem_parserRules.mp hid) _) hm

theorem eq_of_known (h : Surveys g rules memo memo')
    (hknown : ∀ entry ∈ rules, entry.1 ∈ memo) : memo' = memo := by
  induction h with
  | nil => rfl
  | known _ _ ih => exact ih fun entry he => hknown entry (List.mem_cons_of_mem _ he)
  | explored hn => exact absurd (hknown _ List.mem_cons_self) hn

end Surveys

namespace Grammar

theorem pairwise_parserRules (g : Grammar) :
    g.parserRules.Pairwise fun first second => first.1.index < second.1.index := by
  have hindices : (g.rules.toList.zipIdx.map Prod.snd).Pairwise (· < ·) := by
    rw [List.zipIdx_map_snd]
    exact List.pairwise_lt_range'
  have hentries : g.ruleEntries.Pairwise fun first second => first.1.index < second.1.index :=
    List.pairwise_map.mpr (List.pairwise_map.mp hindices)
  refine hentries.filterMap _ fun first second hlt entry hfirst entry' hsecond => ?_
  obtain ⟨rule, -, rfl⟩ := Option.map_eq_some_iff.mp hfirst
  obtain ⟨rule', -, rfl⟩ := Option.map_eq_some_iff.mp hsecond
  exact hlt

theorem pairwise_reported (g : Grammar) (memo : Verdicts) : (memo.reported g.parserRules).Pairwise
    fun first second => first.rule.index < second.rule.index := by
  refine g.pairwise_parserRules.filterMap _ fun first second hlt issue hfirst issue' hsecond => ?_
  simp only [Option.ite_none_right_eq_some, Option.some.injEq] at hfirst hsecond
  obtain ⟨-, rfl⟩ := hfirst
  obtain ⟨-, rfl⟩ := hsecond
  exact hlt

end Grammar

/-- The answers of a detector that detects some number of times, with one memo all the time. -/
def Detection.times {α : Type} (detection : Detection α) : Nat → Detection (List α)
  | 0 => return []
  | n + 1 => do
    let found ← detection
    return found :: (← detection.times n)

theorem Detection.run_times {α : Type} {detection : Detection α} {found : α} {known memo : Verdicts}
    (hfirst : detection.run known = .ok (found, memo))
    (hnext : detection.run memo = .ok (found, memo)) (n : Nat) :
    (detection.times (n + 1)).run known = .ok (List.replicate (n + 1) found, memo) := by
  induction n generalizing known with
  | zero =>
    rw [times, run_bind_ok hfirst]
    rfl
  | succ n ih =>
    rw [times, run_bind_ok hfirst, run_bind_ok (ih hnext)]
    rfl

/-- What a detector answers and knows. The parser rules have verdicts, and no other rule has one; a
verdict is cyclic exactly if it has no openings, which holds of every memo, as a verdict is one or the
other; and the answer is the rules with a cyclic verdict, in declaration order and none of them
twice. -/
structure Grammar.Settles (g : Grammar) (found : List CyclicRule) (memo : Verdicts) : Prop where
  covers : ∀ id, id ∈ memo ↔ ∃ rule, g.parserRule? id = some rule
  cyclic_iff : ∀ (id : RuleId) v, memo[id]? = some v → (v.isCyclic = true ↔ v.openings? = none)
  reports : ∀ issue, issue ∈ found ↔ ∃ rule v, g.parserRule? issue.rule = some rule ∧
    issue.name = rule.name ∧ memo[issue.rule]? = some v ∧ v.isCyclic = true
  ordered : found.Pairwise fun first second => first.rule.index < second.rule.index

namespace Surveys

theorem settles (hg : g.Forest) (h : Surveys g g.parserRules ∅ memo) :
    g.Settles (memo.reported g.parserRules) memo where
  covers id := by
    constructor
    · have hempty : Verdicts.OnParserRules g ∅ := fun id hid => by simp at hid
      exact h.onParserRules (List.Subset.refl _) hempty id
    · intro hparser
      obtain ⟨rule, hrule⟩ := hparser
      exact mem_memo_iff.mpr (h.complete hg (Grammar.mem_parserRules.mpr hrule))
  cyclic_iff id v _ := Option.isNone_iff_eq_none
  reports issue := by
    rw [Verdicts.mem_reported_iff]
    constructor
    · intro hreported
      obtain ⟨rule, hid, hname, hv⟩ := hreported
      exact ⟨rule, .cyclic, Grammar.mem_parserRules.mp hid, hname, hv, rfl⟩
    · intro hcyclic
      obtain ⟨rule, v, hrule, hname, hv, hc⟩ := hcyclic
      cases v with
      | cyclic => exact ⟨rule, Grammar.mem_parserRules.mpr hrule, hname, hv⟩
      | acyclic openings => cases hc
  ordered := g.pairwise_reported memo

/-- With every keeper, a detector has the answer of the survey each time, and its memo. -/
theorem run_times (hg : g.Forest) (h : Surveys g g.parserRules ∅ memo) {keep : Keeper}
    (hkeep : keep.Adheres) (n : Nat) : ((g.detectKeeping keep).times (n + 1)).run ∅ =
      .ok (List.replicate (n + 1) (memo.reported g.parserRules), memo) := by
  have hrules := List.Subset.refl g.parserRules
  obtain ⟨memo', h'⟩ := exists_memo hg hrules memo
  obtain rfl : memo' = memo := h'.eq_of_known fun entry he =>
    mem_memo_iff.mpr (h.complete hg he)
  have hlisting := h.listing hrules Verdicts.listing_empty
  refine Detection.run_times ?_ ?_ n
  · exact h.run hg Guard.shared_adheres hkeep rfl hrules Verdicts.listing_empty
  · exact h'.run hg Guard.shared_adheres hkeep rfl hrules hlisting

end Surveys

/-- On a grammar that has been built, a detector gives one answer however often it detects, and it knows
the parser rules from its first detection on. It does the same where an objection is raised as soon as
a verdict that is written is not the one that the rule has already, so this never happens. -/
theorem detections_settled {name : String} {commands : List Command} {g : Grammar}
    (h : Grammar.build name commands = .ok g) : ∃ found memo, g.Settles found memo ∧
      ∀ n, 1 ≤ n → (g.detect.times n).run ∅ = .ok (List.replicate n found, memo) ∧
        ∀ objection, ((g.detectKeeping (.settled objection)).times n).run ∅ =
          .ok (List.replicate n found, memo) := by
  have hg := Grammar.forest_of_build h
  obtain ⟨memo, hsurvey⟩ := Surveys.exists_memo hg (List.Subset.refl g.parserRules) ∅
  refine ⟨_, memo, hsurvey.settles hg, fun n hn => ?_⟩
  obtain ⟨n, rfl⟩ : ∃ m, n = m + 1 := ⟨n - 1, by omega⟩
  refine ⟨?_, fun objection => hsurvey.run_times hg (Keeper.settled_adheres objection) n⟩
  rw [← g.detectKeeping_replacing]
  exact hsurvey.run_times hg Keeper.replacing_adheres n

/-- The rules `A: B 'a'`, `B: A 'b' | 'c'`, a terminal rule and `C: 'd'`. While `A` is explored, `B`
comes to call `A`, which is then found to be cyclic before its own exploration has ended. -/
def recurrent : Grammar where
  name := "G"
  elements := #[⟨.ruleCall "B" (some ⟨1⟩) [], .once, some ⟨2⟩⟩, ⟨.keyword "a", .once, some ⟨2⟩⟩,
    ⟨.group [⟨0⟩, ⟨1⟩], .once, none⟩, ⟨.ruleCall "A" (some ⟨0⟩) [], .once, some ⟨5⟩⟩,
    ⟨.keyword "b", .once, some ⟨5⟩⟩, ⟨.group [⟨3⟩, ⟨4⟩], .once, some ⟨7⟩⟩,
    ⟨.keyword "c", .once, some ⟨7⟩⟩, ⟨.alternatives [⟨5⟩, ⟨6⟩], .once, none⟩,
    ⟨.keyword "d", .once, none⟩]
  rules := #[.parser { name := "A", body := some ⟨2⟩ }, .parser { name := "B", body := some ⟨7⟩ },
    .terminal { name := "ID" }, .parser { name := "C", body := some ⟨8⟩ }]

theorem build_recurrent : Grammar.build "G" [.add (.ruleCall "B" none []), .add (.keyword "a"),
    .add (.group [⟨0⟩, ⟨1⟩]), .declare (.parser { name := "A", body := some ⟨2⟩ }),
    .add (.ruleCall "A" none []), .add (.keyword "b"), .add (.group [⟨3⟩, ⟨4⟩]),
    .add (.keyword "c"), .add (.alternatives [⟨5⟩, ⟨6⟩]),
    .declare (.parser { name := "B", body := some ⟨7⟩ }), .declare (.terminal { name := "ID" }),
    .add (.keyword "d"), .declare (.parser { name := "C", body := some ⟨8⟩ })] = .ok recurrent := by
  decide +kernel

theorem detections_settled_recurrent : ∃ memo,
    recurrent.Settles [⟨⟨0⟩, "A"⟩, ⟨⟨1⟩, "B"⟩] memo ∧ memo[(⟨3⟩ : RuleId)]? = some (.acyclic [⟨8⟩]) ∧
    (recurrent.detect.times 3).run ∅ =
      .ok (List.replicate 3 [⟨⟨0⟩, "A"⟩, ⟨⟨1⟩, "B"⟩], memo) ∧
    ∀ objection, ((recurrent.detectKeeping (.settled objection)).times 3).run ∅ =
      .ok (List.replicate 3 [⟨⟨0⟩, "A"⟩, ⟨⟨1⟩, "B"⟩], memo) := by
  let known : Verdicts :=
    (((∅ : Verdicts).insert ⟨0⟩ .cyclic).insert ⟨1⟩ .cyclic).insert ⟨3⟩ (.acyclic [⟨8⟩])
  have hone : (recurrent.detect.times 1).run ∅ =
      .ok ([[⟨⟨0⟩, "A"⟩, ⟨⟨1⟩, "B"⟩]], known) := by decide +kernel
  obtain ⟨found, memo, hsettles, hrun⟩ := detections_settled build_recurrent
  cases (hrun 1 (by decide)).1.symm.trans hone
  exact ⟨known, hsettles, rfl, hrun 3 (by decide)⟩

end GrammarLookahead
