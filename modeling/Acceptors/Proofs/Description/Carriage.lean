import Acceptors.Proofs.Description.Formats

/-!
# What readers carry from text to text

Readers are put together from a few tokens, and between tokens they skip blanks and comments. So a
relation of texts that is kept by all tokens and by skipping is kept by every reader of the
language: from related texts it reads the same, or nothing from either, and what is left is related
again.

Two relations are used, one in front of a token, where there is nothing to skip, and one behind it.
A third one, behind the name of a state, may say more. The items of a block end with such a name, so
it is the one that goes from item to item.

## Main definitions

* `Reader.Carries`: from texts in one relation a reader leaves texts in another
* `IsToken`: the tokens that are not read in a special place only
* `Carriage`: what all tokens and skipping carry

## Main results

* `Carries.bind`, `Carries.orElse`, `Carries.many`, …: one rule for each combination
* `Carriage.ruleLine`, `Carriage.actionLine`, `Carriage.statementLine`, …: lines of rules
* `Carriage.sectionReader`: the sections of every kind of description
-/

namespace Acceptors.Description

/-- A relation of texts. -/
abbrev TextRel := List Char → List Char → Prop

namespace Reader

section

variable {α β γ δ : Type} {X Y Z : TextRel} {R : α → β → Prop} {S : γ → δ → Prop} {r : Reader α}
  {r' : Reader β}

/-- From texts in the first relation the readers read related values and leave texts in the second,
or both read nothing. -/
def Carries (X Y : TextRel) (R : α → β → Prop) (r : Reader α) (r' : Reader β) : Prop :=
  ∀ s s', X s s' → Option.Rel (fun p p' => R p.1 p'.1 ∧ Y p.2 p'.2) (r.read s) (r'.read s')

namespace Carries

theorem mono {R' : α → β → Prop} (h : Carries X Y R r r') (himp : ∀ a b, R a b → R' a b) :
    Carries X Y R' r r' :=
  fun s s' hs => rel_mono (h s s' hs) fun _ _ hp => ⟨himp _ _ hp.1, hp.2⟩

theorem post (h : Carries X Y R r r') (himp : ∀ {s s'}, Y s s' → Z s s') : Carries X Z R r r' :=
  fun s s' hs => rel_mono (h s s' hs) fun _ _ hp => ⟨hp.1, himp hp.2⟩

theorem pre (h : Carries X Y R r r') (himp : ∀ {s s'}, Z s s' → X s s') : Carries Z Y R r r' :=
  fun s s' hs => h s s' (himp hs)

/-! ### Sequences -/

theorem pure {a : α} {b : β} (h : R a b) : Carries X X R (Pure.pure a) (Pure.pure b) :=
  fun _ _ hs => .some ⟨h, hs⟩

theorem bind {f : α → Reader γ} {f' : β → Reader δ} (h : Carries X Y R r r')
    (hf : ∀ a b, R a b → Carries Y Z S (f a) (f' b)) : Carries X Z S (r >>= f) (r' >>= f') :=
  fun s s' hs => rel_bind (h s s' hs) fun p p' hp => hf p.1 p'.1 hp.1 p.2 p'.2 hp.2

theorem map {f : α → γ} {f' : β → δ} (h : Carries X Y R r r') (hf : ∀ a b, R a b → S (f a) (f' b)) :
    Carries X Y S (f <$> r) (f' <$> r') := by
  intro s s' hs
  rw [read_map, read_map]
  exact rel_map (h s s' hs) fun _ _ hp => ⟨hf _ _ hp.1, hp.2⟩

theorem phrase {p p' : Phrase} (h : Carries X Y R r r') :
    Carries X Y R (Reader.phrase p r) (Reader.phrase p' r') := h

theorem located (h : Carries X Y R r r') :
    Carries X Y (fun x y => R x.value y.value) r.located r'.located := by
  intro s s' hs
  rw [read_located, read_located]
  exact rel_map (h s s' hs) fun _ _ hp => hp

/-! ### Choices -/

theorem orElse {q : Reader α} {q' : Reader β} (h : Carries X Y R r r') (hq : Carries X Y R q q') :
    Carries X Y R (r <|> q) (r' <|> q') :=
  fun s s' hs => rel_or (h s s' hs) (hq s s' hs)

theorem optional (h : Carries X Y R r r') (hXY : ∀ {s s'}, X s s' → Y s s') :
    Carries X Y (Option.Rel R) r.optional r'.optional :=
  orElse (map h fun _ _ hab => .some hab) ((pure .none).post hXY)

/-! ### Repetitions -/

/-- A repetition skips in front of each value, so it starts where a value ends. -/
theorem many {R : α → α → Prop} (h : Carries X Y R r r) (hr : r.Shrinks)
    (hskip : ∀ {s s'}, Y s s' → X (skipBlanks s) (skipBlanks s')) :
    Carries Y Y (List.Forall₂ R) r.many r.many := by
  have key : ∀ s u as, r.Repeats s as u → ∀ s', Y s s' →
      ∃ as' u', r.Repeats s' as' u' ∧ List.Forall₂ R as as' ∧ Y u u' := by
    intro s u as hs
    induction hs with
    | @stop s hstop =>
      intro s' hss'
      exact ⟨[], s', .stop (rel_of_eq_none (h _ _ (hskip hss')) hstop), .nil, hss'⟩
    | @next s _ _ _ _ hnext _ ih =>
      intro s' hss'
      obtain ⟨p, hp, ha, ht⟩ := rel_of_eq_some (h _ _ (hskip hss')) hnext
      obtain ⟨as', u', hrest, has, hu⟩ := ih p.2 ht
      exact ⟨p.1 :: as', u', .next hp hrest, .cons ha has, hu⟩
  intro s s' hs
  obtain ⟨as', u', hrest, has, hu⟩ := key _ _ _ (repeats_readMany hr (Nat.le_refl s.length)) s' hs
  rw [(read_many_iff hr).mpr hrest]
  exact .some ⟨has, hu⟩

end Carries

end

end Reader

open Reader (Carries)

/-! ## Blocks -/

/-- A block whose items start and end in relations that skipping and the ends of lines carry. -/
theorem carries_block {α : Type} {X W Z : TextRel} {p : Phrase} {item : Reader (Checked α)}
    (hname : Carries X Z Eq stateName stateName)
    (hskip : ∀ {s s'}, Z s s' → W (skipBlanks s) (skipBlanks s'))
    (hcolon : Carries W Z Eq (Reader.lit ":") (Reader.lit ":"))
    (hWZ : ∀ {s s'}, W s s' → Z s s')
    (hitem : Carries W Z Checked.Alike (do Reader.newlines; item) (do Reader.newlines; item))
    (hr : item.Shrinks) :
    Carries X Z (fun b b' => BlocksAlike b.value b'.value) (block p item) (block p item) := by
  have hnext : Carries Z W Eq Reader.skip Reader.skip := fun _ _ hs => .some ⟨rfl, hskip hs⟩
  refine .located <| .phrase <| hname.bind fun _ _ hstate => hnext.bind fun _ _ _ => ?_
  refine hcolon.bind fun _ _ _ => hnext.bind fun _ _ _ => ?_
  exact ((hitem.many hr.newlines hskip).pre hWZ).bind fun _ _ hitems => .pure ⟨hstate, hitems⟩

/-! ## Tokens -/

/-- No character of the word is a blank, ends a line or starts a comment. -/
def isMark (word : String) : Bool :=
  word ≠ "" && word.toList.all fun c => !isSpace c && !isNewline c && c ≠ '/'

theorem forall_of_isMark {word : String} (h : isMark word = true) :
    ∀ c ∈ word.toList, isSpace c = false ∧ isNewline c = false ∧ c ≠ '/' := by
  intro c hc
  have hchar := List.all_eq_true.mp (Bool.and_eq_true_iff.mp h).2 c hc
  simpa [and_assoc] using hchar

theorem eq_append_of_quotedChar {s : List Char} {c : Char} {rest : List Char}
    (h : Token.quotedChar s = some (c, rest)) : s = '\'' :: c :: '\'' :: rest ∧ c ≠ '\'' := by
  unfold Token.quotedChar at h
  split at h
  · split at h
    · next hquotes =>
      obtain ⟨rfl, rfl, hc⟩ := hquotes
      obtain ⟨rfl, rfl⟩ := Prod.mk.inj (Option.some.inj h)
      exact ⟨rfl, hc⟩
    · cases h
  · cases h

/-- The tokens, without the text of a name and the name of a state. -/
inductive IsToken : ∀ {α : Type}, Token α → Prop where
  | ident : IsToken Token.ident
  | digits : IsToken Token.digits
  | symbol : IsToken Token.symbol
  | word : IsToken Token.word
  | bodySymbol : IsToken Token.bodySymbol
  | direction : IsToken Token.direction
  | label : IsToken Token.label
  | variableName : IsToken Token.variableName

theorem IsToken.frames {α : Type} {t : Token α} (h : IsToken t) : t.Frames := by
  cases h with
  | ident => exact Token.frames_ident
  | digits => exact Token.frames_digits
  | symbol => exact Token.frames_symbol
  | word => exact Token.frames_word
  | bodySymbol => exact Token.frames_bodySymbol
  | direction => exact Token.frames_direction
  | label => exact Token.frames_label
  | variableName => exact Token.frames_variableName

/-- Tokens carry texts from the first relation to the second, the name of a state carries them to
the third, and skipping leads back to the first. Items that can be read nowhere in `V` are carried
over the ends of lines. -/
structure Carriage (X Y Z : TextRel) (V : List Char → Prop) : Prop where
  start : ∀ {s s'}, X s s' → Y s s'
  name : ∀ {s s'}, Z s s' → Y s s'
  skip : ∀ {s s'}, Y s s' → X (skipBlanks s) (skipBlanks s')
  lit : ∀ {word}, isMark word = true → Carries X Y Eq (Reader.lit word) (Reader.lit word)
  token : ∀ {α : Type} {t : Token α}, IsToken t → ∀ p,
    Carries X Y Eq (Reader.token p t) (Reader.token p t)
  stateName : Carries X Z Eq stateName stateName
  text : Carries X Y (fun t t' => Text.trim t = Text.trim t') (Reader.token .text Token.text)
    (Reader.token .text Token.text)
  newlines : ∀ {α : Type} {R : α → α → Prop} {r : Reader α}, Carries X Y R r r → r.Shrinks →
    (∀ v, V v → r.read v = none) → Carries X Y R (do Reader.newlines; r) (do Reader.newlines; r)
  block : ∀ {α : Type} {p : Phrase} {item : Reader (Checked α)},
    Carries X Z Checked.Alike item item → item.Shrinks →
      Carries X Y (fun b b' => BlocksAlike b.value b'.value) (block p item) (block p item)

namespace Carriage

section

variable {X Y Z : TextRel} {V : List Char → Prop} (hc : Carriage X Y Z V)

include hc

/-! ## Sequences and lists -/

section

variable {α β γ δ : Type} {W : TextRel} {R : α → β → Prop} {S : γ → δ → Prop}

/-- What is read next is read behind what may be skipped. -/
theorem next {r : Reader α} {r' : Reader β} (h : Carries X Y R r r') {f : α → Reader γ}
    {f' : β → Reader δ} (hf : ∀ a b, R a b → Carries X W S (f a) (f' b)) :
    Carries X W S (do let a ← r; Reader.skip; f a) (do let b ← r'; Reader.skip; f' b) :=
  h.bind fun a b hab => .bind (R := Eq) (Y := X) (fun _ _ hs => .some ⟨rfl, hc.skip hs⟩)
    fun _ _ _ => hf a b hab

theorem nextLit {word : String} (hword : isMark word = true) {q : Reader γ} {q' : Reader δ}
    (hq : Carries X W S q q') : Carries X W S (do Reader.lit word; Reader.skip; q)
      (do Reader.lit word; Reader.skip; q') :=
  hc.next (hc.lit hword) fun _ _ _ => hq

end

section

variable {α : Type} {R : α → α → Prop} {r : Reader α}

theorem many (h : Carries X Y R r r) (hr : r.Shrinks) :
    Carries X Y (List.Forall₂ R) r.many r.many :=
  (h.many hr hc.skip).pre hc.start

/-- Items behind a separating word. -/
theorem manyAfterLit {word : String} (hword : isMark word = true) (hne : word ≠ "")
    (h : Carries X Y R r r) (hr : r.Shrinks) :
    Carries X Y (List.Forall₂ R) (Reader.many do Reader.lit word; Reader.skip; r)
      (Reader.many do Reader.lit word; Reader.skip; r) := by
  refine hc.many (hc.nextLit hword h) ((Reader.shrinks_lit hne).bind fun _ s a t hread => ?_)
  rw [Reader.read_bind, Reader.read_skip, Option.bind_some] at hread
  exact (hr _ a t hread).1.trans (skipBlanks_suffix s)

theorem commaSeparated (h : Carries X Y R r r) (hr : r.Shrinks) :
    Carries X Y (List.Forall₂ R) r.commaSeparated r.commaSeparated :=
  hc.next h fun _ _ ha => (hc.manyAfterLit rfl (by decide) h hr).bind fun _ _ has =>
    .pure (.cons ha has)

theorem bracketed {β : Type} {S : β → β → Prop} {q : Reader β} (h : Carries X Y S q q) :
    Carries X Y S q.bracketed q.bracketed :=
  hc.nextLit rfl <| hc.next h fun _ _ ha => (hc.lit rfl).bind fun _ _ _ => .pure ha

theorem listOf (h : Carries X Y R r r) (hr : r.Shrinks) :
    Carries X Y (List.Forall₂ R) r.listOf r.listOf := by
  have hitems := hc.commaSeparated h hr
  refine .orElse (hc.bracketed ((hitems.optional hc.start).map fun found found' hfound => ?_))
    hitems
  cases hfound with
  | none => exact .nil
  | some has => exact has

theorem listOf_eq (h : Carries X Y Eq r r) (hr : r.Shrinks) : Carries X Y Eq r.listOf r.listOf :=
  (hc.listOf h hr).mono fun _ _ hl => by rwa [List.forall₂_eq_eq_eq] at hl

theorem tupleOf (h : Carries X Y R r r) (hr : r.Shrinks) :
    Carries X Y (List.Forall₂ R) (tupleOf r) (tupleOf r) :=
  .orElse (hc.bracketed (hc.commaSeparated h hr)) (h.map fun _ _ ha => .cons ha .nil)

theorem itemLines (h : Carries X Y R r r) (hr : r.Shrinks) (hV : ∀ v, V v → r.read v = none) :
    Carries X Y (List.Forall₂ R) (itemLines r) (itemLines r) :=
  hc.many (hc.newlines h hr hV) hr.newlines

end

theorem sectionOf {α : Type} {R : α → α → Prop} {r : Reader α} {p : Phrase} {keyword : String}
    (hword : isMark keyword = true) (h : Carries X Y R r r) :
    Carries X Y R (sectionOf p keyword r) (sectionOf p keyword r) := by
  intro s s' hs
  rw [read_sectionOf]
  exact hc.nextLit hword (hc.nextLit rfl h) s s' hs

/-! ## Rules of grammars -/

theorem alternative :
    Carries X Y (List.Forall₂ fun x y : Located (List Char) => x.value = y.value) alternative
      alternative := by
  have hempty : Carries X Y (List.Forall₂ fun x y : Located (List Char) => x.value = y.value)
      emptyBody emptyBody :=
    .map (.phrase ((hc.lit rfl).orElse (hc.lit rfl))) fun _ _ _ => .nil
  have hsymbol := (hc.token .bodySymbol .bodySymbol).located
  have hshrinks : (Reader.token .bodySymbol Token.bodySymbol).located.Shrinks :=
    Reader.Shrinks.located IsToken.bodySymbol.frames.shrinks
  refine .phrase (hempty.orElse (hc.next hsymbol fun _ _ ha => ?_))
  exact (hc.many hsymbol hshrinks).bind fun _ _ has => .pure (.cons ha has)

theorem ruleLine :
    Carries X Y (fun x y => x.1 = y.1 ∧ AlternativesAlike x.2 y.2) ruleLine ruleLine := by
  have halternative := hc.alternative
  have hshrinks := (frames_alternative (.inl rfl)).shrinks
  refine .phrase <| hc.next (hc.token .ident .ident) fun _ _ hhead => hc.nextLit rfl ?_
  refine hc.next halternative fun _ _ hfirst => ?_
  exact (hc.manyAfterLit rfl (by decide) halternative hshrinks).bind fun _ _ hrest =>
    .pure ⟨hhead, .cons hfirst hrest⟩

/-! ## Rules of machines and automata -/

theorem symbol : Carries X Y Eq symbol symbol := hc.token .symbol .symbol

theorem symbolTuple : Carries X Y Eq symbolTuple symbolTuple := by
  have htuple := hc.tupleOf hc.symbol IsToken.symbol.frames.shrinks
  rw [List.forall₂_eq_eq_eq] at htuple
  exact htuple.phrase

theorem directionTuple :
    Carries X Y (List.Forall₂ fun x y => x.value = y.value) directionTuple directionTuple :=
  .phrase <| hc.tupleOf (hc.token .direction .direction).located
    (Reader.Shrinks.located IsToken.direction.frames.shrinks)

/-- An action line ends with the name of a state. -/
theorem actionLine : Carries X Z (fun x y => x.value.Alike y.value) actionLine actionLine := by
  refine .located <| .phrase <| hc.next hc.symbolTuple fun _ _ hread => hc.nextLit rfl ?_
  refine hc.next hc.symbolTuple fun _ _ hwrite => hc.nextLit rfl ?_
  refine hc.next hc.directionTuple fun _ _ hdirections => hc.nextLit rfl ?_
  exact hc.stateName.bind fun _ _ hnext => .pure ⟨hread, hwrite, hdirections, hnext⟩

/-- An edge line ends with the name of a state. -/
theorem edgeLine : Carries X Z Eq edgeLine edgeLine := by
  have hlisted := hc.commaSeparated hc.symbol IsToken.symbol.frames.shrinks
  rw [List.forall₂_eq_eq_eq] at hlisted
  refine .phrase <| hc.next hlisted fun _ _ hsymbols => hc.nextLit rfl ?_
  exact hc.stateName.bind fun _ _ htarget => .pure (by rw [hsymbols, htarget])

/-! ## Statements -/

theorem operand : Carries X Y Checked.Alike operand operand := by
  refine .orElse (.map (hc.token .digits .literal).located fun x y hxy => ?_)
    (.map (hc.token .variableName .variableName) fun x y hxy => ?_)
  · rw [literalOf, literalOf, hxy]
    split <;> rfl
  · rw [hxy]
    exact .refl _

theorem signOf {α : Type} {signs : List (String × α)} (hsigns : ∀ s ∈ signs, isMark s.1 = true) :
    Carries X Y Eq (signOf signs) (signOf signs) := by
  induction signs with
  | nil => exact fun _ _ _ => .none
  | cons s signs ih =>
    obtain ⟨hsign, hsigns⟩ := List.forall_mem_cons.mp hsigns
    exact .orElse (.map (hc.lit hsign) fun _ _ _ => rfl) (ih hsigns)

/-- An assignee is read in front of what is assigned. -/
theorem assignee {α : Type} {R : α → α → Prop} {f : String → Reader α}
    (hf : ∀ x, Carries X Y R (f x) (f x)) :
    Carries X Y R (do let x ← assignee; f x) (do let x ← assignee; f x) := by
  have hread : (do let x ← Description.assignee; f x).read =
      (do let x ← variableName; Reader.skip; Reader.lit ":="; Reader.skip; f x).read := by
    funext s
    simp only [Description.assignee, Reader.read_bind, Reader.read_pure, Option.bind_assoc,
      Option.bind_some]
  intro s s' hs
  rw [hread]
  refine hc.next (hc.token .variableName .variableName) (fun x y hxy => ?_) s s' hs
  subst hxy
  exact hc.nextLit rfl (hf x)

theorem computeLine : Carries X Y Checked.Alike computeLine computeLine := by
  refine .phrase <| hc.assignee fun _ => hc.next hc.operand fun _ _ ha => ?_
  refine hc.next (hc.signOf (by decide)).phrase fun op _ hop => ?_
  subst hop
  exact hc.operand.bind fun _ _ hb => .pure <| ha.bind fun _ => hb.bind fun _ => .refl _

theorem assignLine : Carries X Y Checked.Alike assignLine assignLine :=
  .phrase <| hc.assignee fun _ => hc.operand.bind fun _ _ ha => .pure (ha.map _)

theorem haltLine : Carries X Y Checked.Alike haltLine haltLine :=
  .map (.phrase (hc.lit rfl)) fun _ _ _ => .refl _

theorem destination : Carries X Y Eq destination destination :=
  hc.nextLit rfl (hc.token .label .label)

theorem jumpLine : Carries X Y Checked.Alike jumpLine jumpLine :=
  .map (.phrase hc.destination) fun _ _ hl => hl ▸ .refl _

theorem branchLine : Carries X Y Checked.Alike branchLine branchLine := by
  refine .phrase <| hc.nextLit rfl <| hc.next hc.operand fun _ _ ha => ?_
  refine hc.next (hc.signOf (by decide)).phrase fun rel _ hrel => ?_
  subst hrel
  refine hc.next hc.operand fun _ _ hb => hc.destination.bind fun l _ hl => .pure ?_
  subst hl
  exact ha.bind fun _ => hb.bind fun _ => .refl _

theorem statementLine : Carries X Y Checked.Alike statementLine statementLine := by
  refine .phrase <| hc.next (hc.token .label .label) fun l _ hl => hc.nextLit rfl ?_
  subst hl
  exact (hc.computeLine.orElse <| hc.assignLine.orElse <| hc.haltLine.orElse <|
    hc.jumpLine.orElse hc.branchLine).bind fun _ _ hi => .pure (hi.map _)

/-! ## Sections -/

/-- A section whose value does not depend on its place. -/
theorem valueSection {α : Type} {f : α → Section} {r : Reader α} {p : Phrase} {keyword : String}
    (hword : isMark keyword = true) (h : Carries X Y Eq r r) :
    Carries X Y Section.Alike (f <$> Description.sectionOf p keyword r)
      (f <$> Description.sectionOf p keyword r) :=
  (hc.sectionOf hword h).map fun _ _ ha => ha ▸ .same _

theorem nameSection : Carries X Y Section.Alike nameSection nameSection :=
  (hc.sectionOf rfl hc.text).map fun _ _ ht => .name ht

theorem checksSection : Carries X Y Section.Alike checksSection checksSection := by
  have hwords := hc.listOf_eq (hc.token .word .word) IsToken.word.frames.shrinks
  exact hc.valueSection rfl ((hwords.phrase.optional hc.start).mono fun _ _ h => rel_eq_iff.mp h)

theorem startSection : Carries X Y Section.Alike startSection startSection :=
  hc.valueSection rfl (hc.token .ident .ident)

theorem initialSection : Carries X Y Section.Alike initialSection initialSection :=
  hc.valueSection rfl (hc.stateName.post hc.name)

theorem acceptingSection : Carries X Y Section.Alike acceptingSection acceptingSection :=
  hc.valueSection rfl
    (hc.listOf_eq (hc.stateName.post hc.name) Token.frames_stateName.shrinks).phrase

theorem blankSection : Carries X Y Section.Alike blankSection blankSection :=
  hc.valueSection rfl hc.symbol

theorem alphabetSection : Carries X Y Section.Alike alphabetSection alphabetSection :=
  hc.valueSection rfl (hc.listOf_eq hc.symbol IsToken.symbol.frames.shrinks).phrase

theorem inputSection : Carries X Y Section.Alike inputSection inputSection :=
  hc.valueSection rfl (hc.token .variableName .variableName)

theorem outputSection : Carries X Y Section.Alike outputSection outputSection :=
  hc.valueSection rfl (hc.token .variableName .variableName)

theorem tapesSection : Carries X Y Section.Alike tapesSection tapesSection := by
  refine (hc.sectionOf rfl (hc.token .digits .count)).located.map fun x y hxy => .tapes ?_
  rw [countOf, countOf, hxy]
  split <;> rfl

theorem rulesSection {kind : Kind} (hV : ∀ v, V v → startsRule kind v = false) :
    Carries X Y Section.Alike (rulesSection kind) (rulesSection kind) := by
  have hnone : ∀ {α : Type} {r : Reader α}, (∀ v, V v → (r.read v).isSome = false) →
      ∀ v, V v → r.read v = none :=
    fun h v hv => Option.isNone_iff_eq_none.mp (Option.isSome_eq_false_iff.mp (h v hv))
  have hend : IsSequel [] := isSequel_of_skipLines (.inl rfl) rfl
  cases kind with
  | grammar =>
    have hlines := hc.itemLines hc.ruleLine (frames_ruleLine hend.lineEnd).shrinks (hnone hV)
    exact (hc.sectionOf rfl hlines).map fun _ _ h => .productions (productionsOf_alike h)
  | machine =>
    have hitem : Carries X Z Checked.Alike (actionOf <$> Description.actionLine)
        (actionOf <$> Description.actionLine) := hc.actionLine.map fun _ _ h => actionOf_alike h
    have hblock := hc.block (p := .tmBlock) hitem
      ((frames_actionLine hend.lineEnd).shrinks.map actionOf)
    have hlines := hc.itemLines hblock (frames_transitionBlock hend).shrinks (hnone hV)
    exact (hc.sectionOf rfl hlines).map fun _ _ h => .transitions (checkBlocks_alike h [])
  | dfa =>
    have hitem : Carries X Z Checked.Alike (Except.ok (ε := Located Complaint) <$>
        Description.edgeLine) (Except.ok (ε := Located Complaint) <$> Description.edgeLine) :=
      hc.edgeLine.map fun _ _ h => h ▸ .refl _
    have hblock := hc.block (p := .dfaBlock) hitem
      ((frames_edgeLine hend.lineEnd).shrinks.map _)
    have hlines := hc.itemLines hblock (frames_edgeBlock hend).shrinks (hnone hV)
    exact (hc.sectionOf rfl hlines).map fun _ _ h => .edges (checkBlocks_alike h [])
  | goto =>
    have hlines := hc.itemLines hc.statementLine (frames_statementLine hend.lineEnd).shrinks
      (hnone hV)
    exact (hc.sectionOf rfl hlines).map fun _ _ h => .program (.gather h)

/-- Every section is carried over, if no line in `V` is a rule. -/
theorem sectionReader {kind : Kind} (hV : ∀ v, V v → startsRule kind v = false) :
    Carries X Y Section.Alike (sectionReader kind) (sectionReader kind) := by
  have hrules := hc.rulesSection hV
  have hreaders : ∀ r ∈ sectionReaders kind, Carries X Y Section.Alike r r := by
    cases kind <;> simp only [sectionReaders, List.forall_mem_cons]
    case grammar =>
      exact ⟨hc.nameSection, hc.startSection, hrules, hc.checksSection, List.forall_mem_nil _⟩
    case machine =>
      exact ⟨hc.nameSection, hc.blankSection, hc.tapesSection, hc.initialSection,
        hc.acceptingSection, hrules, hc.checksSection, List.forall_mem_nil _⟩
    case dfa =>
      exact ⟨hc.nameSection, hc.initialSection, hc.acceptingSection, hc.alphabetSection, hrules,
        hc.checksSection, List.forall_mem_nil _⟩
    case goto =>
      exact ⟨hc.nameSection, hc.inputSection, hc.outputSection, hc.startSection, hrules,
        hc.checksSection, List.forall_mem_nil _⟩
  intro s s' hs
  rw [read_sectionReader, read_sectionReader]
  exact rel_findSome? fun r hr => hreaders r hr s s' hs

end

end Carriage

end Acceptors.Description
