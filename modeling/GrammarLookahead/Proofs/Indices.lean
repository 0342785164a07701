import GrammarLookahead.Proofs.Refusal
import GrammarLookahead.Proofs.Resolution

namespace GrammarLookahead

section

variable {κ : Type} [Ord κ] [Std.TransOrd κ]

/-- Where the index leads to there is a rule, and it has the key. -/
def LeadsToRules (key : Rule → Option κ) (index : Std.ExtTreeMap κ RuleId) (rules : Array Rule) :
    Prop :=
  ∀ k id, index[k]? = some id → ∃ r, rules[id.index]? = some r ∧ key r = some k

variable {key : Rule → Option κ} {index : Std.ExtTreeMap κ RuleId} {rules : Array Rule} {rule : Rule}
  {k : κ}

theorem LeadsToRules.empty : LeadsToRules key ∅ rules := by
  intro k id hid
  simp at hid

theorem LeadsToRules.push (h : LeadsToRules key index rules) (rule : Rule) :
    LeadsToRules key index (rules.push rule) := by
  intro k id hid
  obtain ⟨r, hr, hkey⟩ := h k id hid
  have hlt : id.index < rules.size := (Array.getElem?_eq_some_iff.mp hr).1
  exact ⟨r, by rw [Array.getElem?_push, if_neg (by omega), hr], hkey⟩

variable [DecidableEq κ]

/-- The index leads to the first rule of every key that rules have. -/
def Indexes (key : Rule → Option κ) (index : Std.ExtTreeMap κ RuleId) (rules : Array Rule) : Prop :=
  ∀ k, index[k]? = (rules.findIdx? (key · == some k)).map RuleId.mk

theorem Indexes.empty : Indexes key ∅ #[] := by
  intro k
  simp

theorem Indexes.find?_eq (h : Indexes key index rules) (k : κ) :
    rules.find? (key · == some k) = index[k]?.bind fun id => rules[id.index]? := by
  rw [h k, Array.find?_eq_bind_findIdx?_getElem?]
  cases rules.findIdx? (key · == some k) <;> rfl

theorem Indexes.push (h : Indexes key index rules) (hrule : ∀ k, key rule = some k → k ∈ index) :
    Indexes key index (rules.push rule) := by
  intro k
  rw [h k, Array.findIdx?_push]
  cases hfound : rules.findIdx? (key · == some k) with
  | some i => rfl
  | none =>
    have hnone : index[k]? = none := by rw [h k, hfound]; rfl
    have hne : key rule ≠ some k := by
      intro hkey
      have hmem := Std.ExtTreeMap.isSome_getElem?_iff_mem.mpr (hrule k hkey)
      rw [hnone] at hmem
      cases hmem
    simp [hne]

variable [Std.LawfulEqOrd κ]

theorem getElem?_insert_index (id : RuleId) (k' : κ) :
    (index.insert k id)[k']? = if k = k' then some id else index[k']? := by
  simp only [Std.ExtTreeMap.getElem?_insert, Std.LawfulEqOrd.compare_eq_iff_eq]

theorem LeadsToRules.push_insert (h : LeadsToRules key index rules) (hkey : key rule = some k) :
    LeadsToRules key (index.insert k ⟨rules.size⟩) (rules.push rule) := by
  intro k' id hid
  rw [getElem?_insert_index] at hid
  split_ifs at hid with heq
  · cases hid
    exact ⟨rule, by simp, heq ▸ hkey⟩
  · exact h.push rule k' id hid

theorem Indexes.push_insert (h : Indexes key index rules) (hkey : key rule = some k)
    (hk : k ∉ index) : Indexes key (index.insert k ⟨rules.size⟩) (rules.push rule) := by
  intro k'
  rw [getElem?_insert_index, Array.findIdx?_push, h k']
  split_ifs with heq hrule hrule
  · subst heq
    have hnone : rules.findIdx? (key · == some k) = none := by
      rw [← Option.map_eq_none_iff, ← h k]
      exact Std.ExtTreeMap.getElem?_eq_none hk
    rw [hnone]
    rfl
  · simp [hkey, heq] at hrule
  · simp [hkey, heq] at hrule
  · simp

end

/-- A draft with an index of its rules by name and one by body. Both have entries only for what was
accepted. Nothing checks the handle that an index leads to; but an entry is made only for the rule
that is about to be declared, which then has that handle. -/
structure IndexedDraft extends Draft where
  names : Std.ExtTreeMap String RuleId := ∅
  owners : Std.ExtTreeMap ElementId RuleId := ∅

namespace IndexedDraft

def fail (d : IndexedDraft) (e : DraftError) : IndexedDraft :=
  { d with toDraft := d.toDraft.fail e }

/-- The rule of a handle that an index has led to. -/
def rule (d : IndexedDraft) (id : RuleId) : Except Fault Rule :=
  match d.rules[id.index]? with
  | some r => .ok r
  | none => .error (.unknownRule id)

def enclose (d : IndexedDraft) (parent child : ElementId) : IndexedDraft :=
  if child ∈ d.owners then d.fail (.nestedRuleBody child)
  else
    match d.elements[child.index]? with
    | none => d.fail (.unknownElement child)
    | some element =>
      match element.container with
      | some existing => d.fail (.alreadyContained child existing)
      | none =>
        { d with elements := d.elements.modify child.index ({ · with container := some parent }) }

def add (d : IndexedDraft) (kind : ElementKind) : ElementId × IndexedDraft :=
  let id : ElementId := ⟨d.elements.size⟩
  let made := { d with elements := d.elements.push ⟨kind, .once, none⟩ }
  (id, kind.children.foldl (·.enclose id ·) made)

def setCardinality (d : IndexedDraft) (id : ElementId) (c : Cardinality) : IndexedDraft :=
  { d with toDraft := d.toDraft.setCardinality id c }

/-- The rule that is about to be declared takes the element as its body. The name of a rule that has
the body already is needed for the mistake. -/
def claim (d : IndexedDraft) (id : RuleId) (body : ElementId) : Except Fault IndexedDraft :=
  match d.elements[body.index]? with
  | none => return d.fail (.unknownElement body)
  | some element =>
    if element.container.isSome then return d.fail (.nestedRuleBody body)
    else
      match d.owners[body]? with
      | some owner => return d.fail (.sharedRuleBody body (← d.rule owner).name)
      | none => return { d with owners := d.owners.insert body id }

/-- The rule that is about to be declared takes the name. -/
def register (d : IndexedDraft) (id : RuleId) (name : String) : IndexedDraft :=
  if name ∈ d.names then d.fail (.duplicateRule name)
  else { d with names := d.names.insert name id }

/-- Declares a rule. It takes its body before its name. -/
def declare (d : IndexedDraft) (rule : Rule) : Except Fault (RuleId × IndexedDraft) := do
  let id : RuleId := ⟨d.rules.size⟩
  let claimed ← rule.body?.elim (pure d) (d.claim id)
  let registered := claimed.register id rule.name
  return (id, { registered with rules := registered.rules.push rule })

def perform (d : IndexedDraft) : Command → Except Fault (Handle × IndexedDraft)
  | .add kind =>
    let (id, d) := d.add kind
    return (.element id, d)
  | .setCardinality id c => return (.element id, d.setCardinality id c)
  | .declare rule => do
    let (id, d) ← d.declare rule
    return (.rule id, d)

def performAll (d : IndexedDraft) (commands : List Command) : Except Fault IndexedDraft :=
  commands.foldlM (fun d command => Prod.snd <$> d.perform command) d

/-- The grammar that has been built, with calls linked by the index of names, or the first mistake. -/
def finish (d : IndexedDraft) : Except DraftError Grammar :=
  match d.mistake with
  | some e => .error e
  | none =>
    .ok ⟨d.name, d.elements.map fun e => { e with kind := e.kind.link (d.names[·]?) }, d.rules⟩

variable {d : IndexedDraft}

theorem enclose_eq (d : IndexedDraft) (parent child : ElementId) :
    (∃ e, d.enclose parent child = d.fail e) ∨ d.enclose parent child =
      { d with elements := d.elements.modify child.index ({ · with container := some parent }) } := by
  unfold IndexedDraft.enclose
  split_ifs
  · exact .inl ⟨_, rfl⟩
  · split
    · exact .inl ⟨_, rfl⟩
    · split
      · exact .inl ⟨_, rfl⟩
      · exact .inr rfl

theorem indices_enclose (d : IndexedDraft) (parent child : ElementId) :
    (d.enclose parent child).names = d.names ∧ (d.enclose parent child).owners = d.owners := by
  rcases enclose_eq d parent child with ⟨e, heq⟩ | heq
  · rw [heq]
    exact ⟨rfl, rfl⟩
  · rw [heq]
    exact ⟨rfl, rfl⟩

theorem bodyOwner?_eq (h : Indexes Rule.body? d.owners d.rules) (body : ElementId) :
    d.bodyOwner? body = d.owners[body]?.bind fun id => d.rules[id.index]? :=
  h.find?_eq body

theorem toDraft_enclose (h : Indexes Rule.body? d.owners d.rules)
    (howned : LeadsToRules Rule.body? d.owners d.rules) (parent child : ElementId) :
    (d.enclose parent child).toDraft = d.toDraft.enclose parent child := by
  have howner : child ∈ d.owners ↔ (d.bodyOwner? child).isSome = true := by
    rw [bodyOwner?_eq h, ← Std.ExtTreeMap.isSome_getElem?_iff_mem]
    cases hid : d.owners[child]? with
    | none => rfl
    | some id =>
      obtain ⟨r, hr, -⟩ := howned child id hid
      simp [hr]
  unfold IndexedDraft.enclose Draft.enclose
  simp only [howner]
  split_ifs
  · rfl
  · cases d.elements[child.index]? with
    | none => rfl
    | some element =>
      dsimp only
      cases element.container <;> rfl

theorem claim_eq (howned : LeadsToRules Rule.body? d.owners d.rules) (id : RuleId) (body : ElementId) :
    (∃ e, d.claim id body = .ok (d.fail e) ∧
        (Indexes Rule.body? d.owners d.rules → d.toDraft.checkBody body = d.toDraft.fail e)) ∨
      (d.claim id body = .ok { d with owners := d.owners.insert body id } ∧ body ∉ d.owners ∧
        (Indexes Rule.body? d.owners d.rules → d.toDraft.checkBody body = d.toDraft)) := by
  unfold claim Draft.checkBody
  cases he : d.elements[body.index]? with
  | none => exact .inl ⟨_, rfl, fun _ => rfl⟩
  | some element =>
    simp only
    split_ifs with hinside
    · exact .inl ⟨_, rfl, fun _ => rfl⟩
    · cases hid : d.owners[body]? with
      | none =>
        refine .inr ⟨rfl, ?_, ?_⟩
        · intro hmem
          have hsome := Std.ExtTreeMap.isSome_getElem?_iff_mem.mpr hmem
          rw [hid] at hsome
          cases hsome
        · intro h
          rw [bodyOwner?_eq h, hid]
          rfl
      | some owner =>
        obtain ⟨r, hr, -⟩ := howned body owner hid
        refine .inl ⟨.sharedRuleBody body r.name, ?_, ?_⟩
        · simp [IndexedDraft.rule, hr]
        · intro h
          rw [bodyOwner?_eq h, hid, Option.bind_some, hr]

end IndexedDraft

/-- The drafts are the same, or they have the same mistake, the same rules and as many elements. -/
structure Draft.Alike (d d' : Draft) : Prop where
  same : d'.mistake = none → d = d'
  mistake : d.mistake = d'.mistake
  rules : d.rules = d'.rules
  size : d.elements.size = d'.elements.size

namespace Draft.Alike

variable {d d' plain plain' : Draft} {e : DraftError}

theorem refl (d : Draft) : d.Alike d :=
  ⟨fun _ => rfl, rfl, rfl, rfl⟩

theorem symm (h : d.Alike d') : d'.Alike d :=
  ⟨fun hm => (h.same (h.mistake ▸ hm)).symm, h.mistake.symm, h.rules.symm, h.size.symm⟩

theorem trans (h : d.Alike d') (h' : d'.Alike plain) : d.Alike plain where
  same := fun hm => (h.same (h'.mistake.trans hm)).trans (h'.same hm)
  mistake := h.mistake.trans h'.mistake
  rules := h.rules.trans h'.rules
  size := h.size.trans h'.size

theorem fail (hm : d.mistake = some e) (e' : DraftError) : (d.fail e').Alike d where
  same := fun hm' => by simp [hm] at hm'
  mistake := by rw [mistake_fail_of_some hm, hm]
  rules := rfl
  size := rfl

theorem modify (hm : d.mistake = some e) (i : Nat) (f : Element → Element) :
    ({ d with elements := d.elements.modify i f } : Draft).Alike d where
  same := fun hm' => by simp [hm] at hm'
  mistake := rfl
  rules := rfl
  size := Array.size_modify

theorem of_change (hm : d.mistake = some e) {i : Nat} {f : Element → Element}
    (h : (∃ e, d' = d.fail e) ∨ d' = { d with elements := d.elements.modify i f }) : d'.Alike d := by
  rcases h with ⟨e', rfl⟩ | rfl
  · exact fail hm e'
  · exact modify hm i f

theorem checkBody (hm : d.mistake = some e) (body : ElementId) : (d.checkBody body).Alike d := by
  rcases checkBody_eq d body with ⟨e', heq⟩ | heq
  · rw [heq]
    exact fail hm e'
  · rw [heq]
    exact refl d

/-- Drafts that are alike stay so in a step that is the same for both as long as there is no mistake,
and that does not matter after one. -/
theorem step (h : d.Alike plain) (hsame : plain.mistake = none → d' = plain')
    (hd : ∀ e, d.mistake = some e → d'.Alike d)
    (hplain : ∀ e, plain.mistake = some e → plain'.Alike plain) : d'.Alike plain' := by
  cases hm : plain.mistake with
  | none =>
    rw [hsame hm]
    exact refl plain'
  | some e =>
    have hback : d'.Alike plain := (hd e (h.mistake.trans hm)).trans h
    exact hback.trans (hplain e hm).symm

end Draft.Alike

namespace IndexedDraft

theorem alike_enclose {d : IndexedDraft} {e : DraftError} (hm : d.mistake = some e)
    (parent child : ElementId) : (d.enclose parent child).toDraft.Alike d.toDraft := by
  refine .of_change hm ((enclose_eq d parent child).imp ?_ (congrArg toDraft))
  exact fun hfail => hfail.imp fun _ heq => congrArg toDraft heq

/-- The draft with indices stands for the plain one, with an index of the names of the rules `named`
and one of the bodies of the rules `owning`. While a rule is declared, an index is one rule ahead of the
draft. After a mistake the index of bodies may lack entries, but those that it has lead to rules. -/
structure Mirrors (d : IndexedDraft) (plain : Draft) (named owning : Array Rule) : Prop where
  alike : d.toDraft.Alike plain
  names : Indexes (some ·.name) d.names named
  owners : plain.mistake = none → Indexes Rule.body? d.owners owning
  owned : LeadsToRules Rule.body? d.owners owning

/-- The draft with indices stands for the plain one, and its indices are of the rules declared so far. -/
def Tracks (d : IndexedDraft) (plain : Draft) : Prop :=
  d.Mirrors plain plain.rules plain.rules

namespace Mirrors

variable {d d' : IndexedDraft} {plain plain' : Draft} {named owning : Array Rule} {rule : Rule}

theorem frame (h : d.Mirrors plain named owning) (hnames : d'.names = d.names)
    (howners : d'.owners = d.owners) (hsame : plain.mistake = none → d'.toDraft = plain')
    (hd : ∀ e, d.mistake = some e → d'.toDraft.Alike d.toDraft)
    (hplain : ∀ e, plain.mistake = some e → plain'.Alike plain) :
    d'.Mirrors plain' named owning where
  alike := h.alike.step hsame hd hplain
  names := hnames ▸ h.names
  owners := by
    intro hm'
    cases hm : plain.mistake with
    | none => exact howners ▸ h.owners hm
    | some e =>
      rw [(hplain e hm).mistake, hm] at hm'
      cases hm'
  owned := howners ▸ h.owned

theorem fail (h : d.Mirrors plain named owning) (e : DraftError) :
    (d.fail e).Mirrors (plain.fail e) named owning := by
  refine h.frame rfl rfl ?_ (fun _ hm => .fail hm e) (fun _ hm => .fail hm e)
  intro hm
  rw [← h.alike.same hm]
  rfl

theorem register (h : d.Mirrors plain plain.rules owning) (rule : Rule) :
    (d.register ⟨plain.rules.size⟩ rule.name).Mirrors (plain.checkName rule.name)
      (plain.rules.push rule) owning := by
  have hmem : rule.name ∈ d.names ↔ plain.rules.any (·.name == rule.name) := by
    rw [← Std.ExtTreeMap.isSome_getElem?_iff_mem, h.names rule.name]
    simp
  have hpush : rule.name ∈ d.names → Indexes (some ·.name) d.names (plain.rules.push rule) := by
    intro hin
    apply h.names.push
    intro k hk
    cases hk
    exact hin
  unfold IndexedDraft.register Draft.checkName
  simp only [hmem] at hpush ⊢
  split_ifs with hany
  · exact { h.fail _ with names := hpush hany }
  · refine ⟨h.alike, ?_, h.owners, h.owned⟩
    exact h.names.push_insert rfl (mt hmem.mp hany)

theorem push (h : d.Mirrors plain (plain.rules.push rule) (plain.rules.push rule)) :
    Tracks { d with rules := d.rules.push rule } { plain with rules := plain.rules.push rule } where
  alike :=
    { same := fun hm => by rw [← h.alike.same hm]
      mistake := h.alike.mistake
      rules := congrArg (·.push rule) h.alike.rules
      size := h.alike.size }
  names := h.names
  owners := h.owners
  owned := h.owned

end Mirrors

namespace Tracks

variable {d : IndexedDraft} {plain : Draft} {rule : Rule}

theorem indexes (h : d.Tracks plain) (hm : plain.mistake = none) :
    Indexes Rule.body? d.owners d.rules := by
  rw [h.alike.rules]
  exact h.owners hm

theorem leadsToRules (h : d.Tracks plain) : LeadsToRules Rule.body? d.owners d.rules := by
  rw [h.alike.rules]
  exact h.owned

theorem enclose (h : d.Tracks plain) (parent child : ElementId) :
    (d.enclose parent child).Tracks (plain.enclose parent child) := by
  have hindices := indices_enclose d parent child
  have hsame : plain.mistake = none →
      (d.enclose parent child).toDraft = plain.enclose parent child := by
    intro hm
    rw [toDraft_enclose (h.indexes hm) h.leadsToRules, h.alike.same hm]
  rw [Tracks, Draft.rules_enclose]
  exact h.frame hindices.1 hindices.2 hsame (fun _ hm => alike_enclose hm parent child)
    (fun _ hm => .of_change hm (Draft.enclose_eq plain parent child))

theorem foldl_enclose (h : d.Tracks plain) (parent : ElementId) (children : List ElementId) :
    (children.foldl (·.enclose parent ·) d).Tracks (children.foldl (·.enclose parent ·) plain) := by
  induction children generalizing d plain with
  | nil => exact h
  | cons child children ih => exact ih (h.enclose parent child)

theorem make (h : d.Tracks plain) (e : Element) :
    Tracks { d with elements := d.elements.push e }
      { plain with elements := plain.elements.push e } where
  alike :=
    { same := fun hm => by rw [← h.alike.same hm]
      mistake := h.alike.mistake
      rules := h.alike.rules
      size := by simp [h.alike.size] }
  names := h.names
  owners := h.owners
  owned := h.owned

theorem add (h : d.Tracks plain) (kind : ElementKind) : (d.add kind).2.Tracks (plain.add kind).2 := by
  unfold IndexedDraft.add Draft.add
  rw [h.alike.size]
  exact (h.make ⟨kind, .once, none⟩).foldl_enclose ⟨plain.elements.size⟩ kind.children

theorem setCardinality (h : d.Tracks plain) (id : ElementId) (c : Cardinality) :
    (d.setCardinality id c).Tracks (plain.setCardinality id c) := by
  have hlate : ∀ {draft : Draft} e, draft.mistake = some e → (draft.setCardinality id c).Alike draft :=
    fun _ hm => .of_change hm (Draft.setCardinality_eq _ id c)
  have hsame : plain.mistake = none → (d.setCardinality id c).toDraft = plain.setCardinality id c := by
    intro hm
    rw [← h.alike.same hm]
    rfl
  rw [Tracks, Draft.rules_setCardinality]
  exact h.frame rfl rfl hsame hlate hlate

theorem claim (h : d.Tracks plain) {body : ElementId} (hb : rule.body? = some body) :
    ∃ d', d.claim ⟨plain.rules.size⟩ body = .ok d' ∧
      d'.Mirrors (plain.checkBody body) plain.rules (plain.rules.push rule) := by
  have hlate : ∀ e, plain.mistake = some e → (plain.checkBody body).Alike plain :=
    fun _ hm => .checkBody hm body
  rcases claim_eq h.leadsToRules ⟨plain.rules.size⟩ body with
    ⟨e, hclaim, hcheck⟩ | ⟨hclaim, hnew, hcheck⟩
  · -- Without its body in the index the rule is refused, so there is a mistake and nothing is missed.
    have hsame : plain.mistake = none → (d.fail e).toDraft = plain.checkBody body := by
      intro hm
      rw [← h.alike.same hm, hcheck (h.indexes hm)]
      rfl
    have hframe : (d.fail e).Mirrors (plain.checkBody body) plain.rules plain.rules :=
      h.frame rfl rfl hsame (fun _ hm => .fail hm e) hlate
    have hfailed : (plain.checkBody body).mistake ≠ none := by
      rw [← hframe.alike.mistake]
      exact Draft.not_mistake_of_fail
    exact ⟨_, hclaim, hframe.alike, h.names, fun hm => absurd hm hfailed, h.owned.push rule⟩
  · have hsame : plain.mistake = none → d.toDraft = plain.checkBody body := by
      intro hm
      rw [← h.alike.same hm, hcheck (h.indexes hm)]
    have hframe : d.Mirrors (plain.checkBody body) plain.rules plain.rules :=
      h.frame rfl rfl hsame (fun _ _ => .refl d.toDraft) hlate
    refine ⟨_, hclaim, hframe.alike, h.names, ?_, h.owned.push_insert hb⟩
    intro hm
    exact (hframe.owners hm).push_insert hb hnew

theorem body (h : d.Tracks plain) (rule : Rule) :
    ∃ d', rule.body?.elim (pure d) (d.claim ⟨plain.rules.size⟩) = .ok d' ∧
      d'.Mirrors (rule.body?.elim plain plain.checkBody) plain.rules (plain.rules.push rule) := by
  cases hb : rule.body? with
  | some body => exact h.claim hb
  | none =>
    refine ⟨d, rfl, h.alike, h.names, ?_, h.owned.push rule⟩
    intro hm
    apply (h.owners hm).push
    intro k hk
    rw [hb] at hk
    cases hk

theorem declare (h : d.Tracks plain) (rule : Rule) :
    ∃ d', d.declare rule = .ok ((plain.declare rule).1, d') ∧ d'.Tracks (plain.declare rule).2 := by
  obtain ⟨claimed, hclaim, hclaimed⟩ := h.body rule
  have hrules : (rule.body?.elim plain plain.checkBody).rules = plain.rules := by
    cases rule.body? with
    | none => rfl
    | some body => exact Draft.rules_checkBody plain body
  rw [← hrules] at hclaimed
  have hregistered := hclaimed.register rule
  rw [← Draft.rules_checkName rule.name] at hregistered
  refine ⟨_, ?_, hregistered.push⟩
  simp only [IndexedDraft.declare, h.alike.rules, hclaim, ok_bind, Draft.rules_checkName, hrules]
  rfl

theorem perform (h : d.Tracks plain) (command : Command) :
    ∃ d', d.perform command = .ok ((plain.perform command).1, d') ∧
      d'.Tracks (plain.perform command).2 := by
  cases command with
  | add kind =>
    have hid : (d.add kind).1 = (plain.add kind).1 := congrArg ElementId.mk h.alike.size
    refine ⟨_, ?_, h.add kind⟩
    simp only [IndexedDraft.perform, Draft.perform, hid]
    rfl
  | setCardinality id c => exact ⟨_, rfl, h.setCardinality id c⟩
  | declare rule =>
    obtain ⟨d', hd', htracks⟩ := h.declare rule
    refine ⟨d', ?_, htracks⟩
    simp only [IndexedDraft.perform, hd', ok_bind]
    rfl

theorem empty (name : String) : Tracks { name } { name } where
  alike := .refl _
  names := .empty
  owners := fun _ => .empty
  owned := .empty

theorem performAll (name : String) (commands : List Command) :
    ∃ d, IndexedDraft.performAll { name } commands = .ok d ∧
      d.Tracks (Draft.performAll { name } commands) := by
  induction commands using List.reverseRecOn with
  | nil => exact ⟨_, rfl, empty name⟩
  | append_singleton commands command ih =>
    obtain ⟨d, hd, htracks⟩ := ih
    obtain ⟨d', hd', hstep⟩ := htracks.perform command
    rw [Draft.performAll_append]
    refine ⟨d', ?_, hstep⟩
    rw [IndexedDraft.performAll, List.foldlM_append]
    rw [IndexedDraft.performAll] at hd
    simp [hd, hd', ok_bind]

theorem names_eq (h : d.Tracks plain) (name : String) :
    d.names[name]? = (plain.rules.findIdx? (·.name == name)).map RuleId.mk := by
  rw [h.names name]
  simp only [Option.some_beq_some]

theorem finish_eq (h : d.Tracks plain) : d.finish = plain.finish := by
  unfold IndexedDraft.finish Draft.finish
  rw [h.alike.mistake]
  cases hm : plain.mistake with
  | some e => rfl
  | none =>
    have hlookup : (d.names[·]?) = Grammar.ruleNamed? ⟨d.name, d.elements, d.rules⟩ := by
      funext name
      rw [h.names_eq name, ← h.alike.rules]
      rfl
    rw [hlookup, ← h.alike.same hm]
    rfl

/-- The indices lead to the rules that the finished grammar looks up. -/
theorem indices_finish (h : d.Tracks plain) {g : Grammar} (hg : plain.finish = .ok g) :
    (∀ name, d.names[name]? = g.ruleNamed? name) ∧ ∀ body, d.owners[body]? = g.bodyOwner? body := by
  unfold Draft.finish at hg
  split at hg
  · cases hg
  · rename_i hm
    cases hg
    exact ⟨h.names_eq, h.owners hm⟩

end Tracks

end IndexedDraft

end GrammarLookahead
