import GrammarLookahead.Proofs.Ascent
import GrammarLookahead.Proofs.Construction
import GrammarLookahead.Proofs.Lookahead.Adequacy

namespace GrammarLookahead

/-- The search for what comes next after a single entry of a stack: the context that it is made in,
what it finds, and the context that it leaves. -/
structure Frame where
  entry : ElementId
  before : Context
  found : List ElementId
  after : Context

namespace Frame

/-- The search has this answer, within some depth. -/
def Answers (g : Grammar) (f : Frame) : Prop :=
  ∃ depth, (g.continuationsWithin depth [f.entry]).run f.before = .ok (f.found, f.after)

/-- The entry is inside of a group, and among what was found for it there is something that may not be
skipped in the context that the search leaves. -/
def Bars (g : Grammar) (f : Frame) : Prop :=
  g.Grouped f.entry ∧ ∃ id ∈ f.found, ∃ c, f.after.effective g id = .ok c ∧ c.isOptional = false

end Frame

namespace Grammar

/-- The searches have these answers, each in the context that the one before has left. -/
inductive Runs (g : Grammar) : Context → List Frame → Context → Prop
  | nil {o} : Runs g o [] o
  | cons {f o frames p} : f.before = o → f.Answers g → Runs g f.after frames p →
      Runs g o (f :: frames) p

/-- The search of the stack stops behind the frames: there are no more entries, or the last frame bars
the way. -/
def Stops (g : Grammar) (stack : List ElementId) (frames : List Frame) : Prop :=
  stack.length = frames.length ∨ ∃ f ∈ frames.getLast?, f.Bars g

/-- The frames are those of the first entries of the stack, up to the first frame that bars the way, or
of all entries if none does. -/
structure Decomposes (g : Grammar) (stack : List ElementId) (o : Context) (frames : List Frame)
    (p : Context) : Prop where
  runs : g.Runs o frames p
  entries : frames.map Frame.entry <+: stack
  passed : ∀ f ∈ frames.dropLast, ¬ f.Bars g
  stops : g.Stops stack frames

end Grammar

variable {g : Grammar} {f : Frame} {frames : List Frame} {id : ElementId}
  {stack calls l : List ElementId} {o p r : Context}

theorem Context.not_skips_iff (hl : ∀ id ∈ l, g.Issued id) :
    ¬ p.Skips g l ↔ ∃ id ∈ l, ∃ c, p.effective g id = .ok c ∧ c.isOptional = false := by
  unfold Context.Skips
  push Not
  refine exists_congr fun id => and_congr_right fun hid => ?_
  simp [Context.effective_eq (hl id hid)]

theorem Frame.Answers.bars_iff (hf : f.Answers g) :
    f.Bars g ↔ g.Grouped f.entry ∧ ¬ f.after.Skips g f.found := by
  have hleaves := (Finds.continuations_iff.mpr hf).leaves
  rw [Frame.Bars, Context.not_skips_iff fun id hid => (hleaves id hid).issued]

/-- The search of a stack begins with a frame of the first entry, and goes on to the other entries
unless that bars the way. -/
theorem Finds.exists_frame (hg : g.Forest) (h : Finds g (.continuations (id :: calls)) o l r) :
    ∃ own p, Frame.Answers g ⟨id, o, own, p⟩ ∧
      (Frame.Bars g ⟨id, o, own, p⟩ ∧ l = own ∧ r = p ∨
        ¬ Frame.Bars g ⟨id, o, own, p⟩ ∧
          ∃ more, Finds g (.continuations calls) p more r ∧ l = own ++ more) := by
  cases h with
  | @pop _ _ _ _ own p more _ hga hahead hcalls =>
    have hf : Frame.Answers g ⟨id, o, own ++ [], p⟩ :=
      Finds.continuations_iff.mp (.pop hga hahead .bottom)
    rw [List.append_nil] at hf
    have hnot : ¬ Frame.Bars g ⟨id, o, own, p⟩ := fun hbars => by
      obtain ⟨_, hnone⟩ := (hg.grouped_iff hga).mp hbars.1
      cases hnone
    exact ⟨own, p, hf, .inr ⟨hnot, more, hcalls, rfl⟩⟩
  | settle hga hahead hs =>
    have hf : Frame.Answers g ⟨id, o, l, r⟩ :=
      Finds.continuations_iff.mp (.settle hga hahead hs)
    exact ⟨l, r, hf, .inl ⟨hf.bars_iff.mpr ⟨(hg.grouped_iff hga).mpr ⟨_, rfl⟩, hs⟩, rfl, rfl⟩⟩
  | @climb _ _ _ _ _ own _ above _ hga hahead hs habove hs' =>
    have hf : Frame.Answers g ⟨id, o, own ++ above, r⟩ :=
      Finds.continuations_iff.mp (.climb hga hahead hs habove hs')
    have hbars := hf.bars_iff.mpr ⟨(hg.grouped_iff hga).mpr ⟨_, rfl⟩, hs'⟩
    exact ⟨_, r, hf, .inl ⟨hbars, rfl, rfl⟩⟩
  | @leave _ _ _ _ _ own _ above p more _ hga hahead hs habove hs' hcalls =>
    have hf : Frame.Answers g ⟨id, o, own ++ above ++ [], p⟩ :=
      Finds.continuations_iff.mp (.leave hga hahead hs habove hs' .bottom)
    rw [List.append_nil] at hf
    have hnot : ¬ Frame.Bars g ⟨id, o, own ++ above, p⟩ :=
      fun hbars => (hf.bars_iff.mp hbars).2 hs'
    exact ⟨_, p, hf, .inr ⟨hnot, more, hcalls, rfl⟩⟩

namespace Frame.Answers

theorem stop (hg : g.Forest) (hf : f.Answers g) (hbars : f.Bars g) :
    Finds g (.continuations (f.entry :: calls)) f.before f.found f.after := by
  obtain ⟨hin, hs⟩ := hf.bars_iff.mp hbars
  have hown := Finds.continuations_iff.mpr hf
  generalize f.found = found at hown hs ⊢
  cases hown with
  | pop hga =>
    obtain ⟨_, hnone⟩ := (hg.grouped_iff hga).mp hin
    cases hnone
  | settle hga hahead hs => exact .settle hga hahead hs
  | climb hga hahead hskips habove hs' => exact .climb hga hahead hskips habove hs'
  | leave _ _ _ _ hs' hbottom =>
    cases hbottom
    rw [List.append_nil] at hs
    exact absurd hs' hs

theorem pass (hg : g.Forest) (hf : f.Answers g) (hnot : ¬ f.Bars g)
    (hmore : Finds g (.continuations calls) f.after l r) :
    Finds g (.continuations (f.entry :: calls)) f.before (f.found ++ l) r := by
  rw [hf.bars_iff] at hnot
  have hown := Finds.continuations_iff.mpr hf
  generalize f.found = found at hown hnot ⊢
  cases hown with
  | pop hga hahead hbottom =>
    cases hbottom
    rw [List.append_nil]
    exact .pop hga hahead hmore
  | settle hga _ hs => exact absurd ⟨(hg.grouped_iff hga).mpr ⟨_, rfl⟩, hs⟩ hnot
  | climb hga _ _ _ hs' => exact absurd ⟨(hg.grouped_iff hga).mpr ⟨_, rfl⟩, hs'⟩ hnot
  | leave hga hahead hskips habove hs' hbottom =>
    cases hbottom
    rw [List.append_nil]
    exact .leave hga hahead hskips habove hs' hmore

end Frame.Answers

namespace Grammar.Decomposes

theorem nil : g.Decomposes [] o [] o :=
  ⟨.nil, List.nil_prefix, by simp, .inl rfl⟩

theorem single (hf : f.Answers g) (hbars : f.Bars g) :
    g.Decomposes (f.entry :: calls) f.before [f] f.after :=
  ⟨.cons rfl hf .nil, by simp, by simp, .inr ⟨f, rfl, hbars⟩⟩

theorem cons (hf : f.Answers g) (hnot : ¬ f.Bars g) (h : g.Decomposes calls f.after frames p) :
    g.Decomposes (f.entry :: calls) f.before (f :: frames) p where
  runs := .cons rfl hf h.runs
  entries := List.cons_prefix_cons.mpr ⟨rfl, h.entries⟩
  passed := by
    cases frames with
    | nil => simp
    | cons next frames => exact List.forall_mem_cons.mpr ⟨hnot, h.passed⟩
  stops := by
    refine h.stops.imp (congrArg Nat.succ) fun hlast => ?_
    obtain ⟨last, hlast, hbars⟩ := hlast
    exact ⟨last, by simp [List.getLast?_cons, Option.mem_def.mp hlast], hbars⟩

theorem eq_nil (h : g.Decomposes stack o [] p) : stack = [] ∧ p = o := by
  obtain ⟨hruns, -, -, hlength | ⟨_, hlast, -⟩⟩ := h
  · cases hruns
    exact ⟨List.length_eq_zero_iff.mp hlength, rfl⟩
  · cases hlast

theorem cases_cons (h : g.Decomposes stack o (f :: frames) p) :
    ∃ calls, stack = f.entry :: calls ∧ o = f.before ∧ f.Answers g ∧
      (f.Bars g ∧ frames = [] ∧ p = f.after ∨
        ¬ f.Bars g ∧ g.Decomposes calls f.after frames p) := by
  obtain ⟨hruns, hentries, hpassed, hstops⟩ := h
  cases hruns with
  | cons hbefore hf hruns =>
    obtain ⟨rest, rfl⟩ := hentries
    refine ⟨_, rfl, hbefore.symm, hf, ?_⟩
    by_cases hbars : f.Bars g
    · cases frames with
      | nil =>
        cases hruns
        exact .inl ⟨hbars, rfl, rfl⟩
      | cons next frames => exact absurd hbars (hpassed f List.mem_cons_self)
    · refine .inr ⟨hbars, hruns, List.prefix_append _ _, ?_, ?_⟩
      · cases frames with
        | nil => simp
        | cons next frames => exact fun other ho => hpassed other (List.mem_cons_of_mem _ ho)
      · refine hstops.imp Nat.succ.inj fun hlast => ?_
        obtain ⟨last, hlast, hbars'⟩ := hlast
        cases frames with
        | nil =>
          obtain rfl : f = last := by simpa using hlast
          exact absurd hbars' hbars
        | cons next frames => exact ⟨last, by simpa using hlast, hbars'⟩

/-- The frames are those of every stack that agrees with this one on their entries and that the search
stops in behind them. -/
theorem congr {stack' : List ElementId} (h : g.Decomposes stack o frames p)
    (hagree : stack'.take frames.length = stack.take frames.length) (hstops : g.Stops stack' frames) :
    g.Decomposes stack' o frames p := by
  refine ⟨h.runs, ?_, h.passed, hstops⟩
  have hentries := List.prefix_iff_eq_take.mp h.entries
  rw [List.length_map, ← hagree] at hentries
  exact hentries ▸ List.take_prefix _ _

end Grammar.Decomposes

theorem Finds.exists_frames (hg : g.Forest) (h : Finds g (.continuations stack) o l p) :
    ∃ frames, g.Decomposes stack o frames p ∧ l = frames.flatMap Frame.found := by
  induction stack generalizing o l with
  | nil =>
    cases h
    exact ⟨[], .nil, rfl⟩
  | cons id calls ih =>
    obtain ⟨own, q, hf, hrest⟩ := h.exists_frame hg
    rcases hrest with ⟨hbars, rfl, rfl⟩ | ⟨hnot, more, hmore, rfl⟩
    · exact ⟨_, .single hf hbars, by simp⟩
    · obtain ⟨frames, hframes, rfl⟩ := ih hmore
      exact ⟨_, .cons hf hnot hframes, rfl⟩

theorem Grammar.Decomposes.finds (hg : g.Forest) (h : g.Decomposes stack o frames p) :
    Finds g (.continuations stack) o (frames.flatMap Frame.found) p := by
  induction frames generalizing stack o with
  | nil =>
    obtain ⟨rfl, rfl⟩ := h.eq_nil
    exact .bottom
  | cons f frames ih =>
    rw [List.flatMap_cons]
    obtain ⟨calls, rfl, rfl, hf, ⟨hbars, rfl, rfl⟩ | ⟨hnot, hframes⟩⟩ := h.cases_cons
    · rw [List.flatMap_nil, List.append_nil]
      exact hf.stop hg hbars
    · exact hf.pass hg hnot (ih hframes)

/-- On a grammar that has been built, and in any context, the continuations of a stack are what the
frames of its entries find, one after the other, up to the first frame that bars the way, and the
context that is left is that of the last of these frames. So they are the same for every stack that
agrees up to there and that the search stops in at the same entry, and below an entry that bars the way
the stack may hold anything. -/
theorem continuations_decompose {name : String} {commands : List Command} {g : Grammar}
    (h : Grammar.build name commands = .ok g) (stack : List ElementId) (o : Context) :
    (∀ l p, (∃ depth, (g.continuationsWithin depth stack).run o = .ok (l, p)) ↔
      ∃ frames, g.Decomposes stack o frames p ∧ l = frames.flatMap Frame.found) ∧
    ∀ frames p, g.Decomposes stack o frames p →
      ∀ stack', stack'.take frames.length = stack.take frames.length → g.Stops stack' frames →
        ∀ l q, (∃ depth, (g.continuationsWithin depth stack').run o = .ok (l, q)) ↔
          l = frames.flatMap Frame.found ∧ q = p := by
  have hg := Grammar.forest_of_build h
  constructor
  · intro l p
    rw [← Finds.continuations_iff]
    refine ⟨fun hfinds => hfinds.exists_frames hg, fun hframes => ?_⟩
    obtain ⟨frames, hframes, rfl⟩ := hframes
    exact hframes.finds hg
  · intro frames p hframes stack' hagree hstops l q
    have hfinds := (hframes.congr hagree hstops).finds hg
    rw [← Finds.continuations_iff]
    constructor
    · exact fun hfinds' => hfinds'.unique hfinds
    · intro heq
      obtain ⟨rfl, rfl⟩ := heq
      exact hfinds

/-- The rules `B: 'b'`, `R: 'a' B?` and `S: R 'd'`. -/
def staged : Grammar where
  name := "G"
  elements := #[⟨.keyword "b", .once, none⟩, ⟨.keyword "a", .once, some ⟨3⟩⟩,
    ⟨.ruleCall "B" (some ⟨0⟩) [], .optional, some ⟨3⟩⟩, ⟨.group [⟨1⟩, ⟨2⟩], .once, none⟩,
    ⟨.ruleCall "R" (some ⟨1⟩) [], .once, some ⟨6⟩⟩, ⟨.keyword "d", .once, some ⟨6⟩⟩,
    ⟨.group [⟨4⟩, ⟨5⟩], .once, none⟩]
  rules := #[.parser { name := "B", body := some ⟨0⟩ }, .parser { name := "R", body := some ⟨3⟩ },
    .parser { name := "S", body := some ⟨6⟩ }]

namespace Staged

theorem build : Grammar.build "G" [.add (.keyword "b"),
    .declare (.parser { name := "B", body := some ⟨0⟩ }), .add (.keyword "a"),
    .add (.ruleCall "B" none []), .setCardinality ⟨2⟩ .optional, .add (.group [⟨1⟩, ⟨2⟩]),
    .declare (.parser { name := "R", body := some ⟨3⟩ }), .add (.ruleCall "R" none []),
    .add (.keyword "d"), .add (.group [⟨4⟩, ⟨5⟩]),
    .declare (.parser { name := "S", body := some ⟨6⟩ })] = .ok staged := by
  decide +kernel

/-- The context that the search behind `'a'` leaves, where the keyword in `B?` may be skipped. -/
def marked : Context :=
  (∅ : Context).insert ⟨0⟩ .optional

def keyword : Frame :=
  ⟨⟨1⟩, ∅, [⟨0⟩], marked⟩

def call : Frame :=
  ⟨⟨4⟩, marked, [⟨5⟩], marked⟩

theorem answers_keyword : keyword.Answers staged :=
  ⟨4, by decide +kernel⟩

theorem answers_call : call.Answers staged :=
  ⟨3, by decide +kernel⟩

theorem not_bars_keyword : ¬ keyword.Bars staged := by
  rw [answers_keyword.bars_iff]
  have hs : marked.Skips staged [⟨0⟩] := by decide +kernel
  exact fun hbars => hbars.2 hs

theorem bars_call : call.Bars staged :=
  ⟨⟨⟨6⟩, ⟨_, rfl, rfl⟩, .single ⟨_, rfl, by decide⟩⟩, ⟨5⟩, by decide, .once, by decide +kernel, rfl⟩

theorem decomposes : staged.Decomposes [⟨1⟩, ⟨4⟩] ∅ [keyword, call] marked :=
  .cons answers_keyword not_bars_keyword (.single answers_call bars_call)

end Staged

/-- Behind the call of `R` the keyword `d` is mandatory, so below that call the stack may hold what is
no element of the grammar. -/
theorem continuations_decompose_staged :
    (∃ depth, (staged.continuationsWithin depth [⟨1⟩, ⟨4⟩]).run ∅ =
      .ok ([⟨0⟩, ⟨5⟩], Staged.marked)) ∧
    staged.element? ⟨99⟩ = none ∧
    ∃ depth, (staged.continuationsWithin depth [⟨1⟩, ⟨4⟩, ⟨99⟩]).run ∅ =
      .ok ([⟨0⟩, ⟨5⟩], Staged.marked) := by
  obtain ⟨hframes, hcongr⟩ := continuations_decompose Staged.build [⟨1⟩, ⟨4⟩] ∅
  have hstops : staged.Stops [⟨1⟩, ⟨4⟩, ⟨99⟩] [Staged.keyword, Staged.call] :=
    .inr ⟨_, rfl, Staged.bars_call⟩
  exact ⟨(hframes _ _).mpr ⟨_, Staged.decomposes, rfl⟩, rfl,
    (hcongr _ _ Staged.decomposes [⟨1⟩, ⟨4⟩, ⟨99⟩] rfl hstops _ _).mpr ⟨rfl, rfl⟩⟩

end GrammarLookahead
