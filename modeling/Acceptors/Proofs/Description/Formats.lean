import Acceptors.Proofs.Description.Agreement
import Acceptors.Proofs.Description.Likeness
import Mathlib.Data.List.TakeWhile

/-!
# Sections in front of further lines

What is read as a section does not depend on the lines behind it, but for a section of rules: it
goes on as long as lines can be read as rules. What may change is the places of complaints and the
white space behind a name.

## Main definitions

* `Section.holdsRules`: whether the section goes on with lines of rules
* `startsRule`: whether a line can be read as a rule, the name of a block or a statement
* `IsSequel`: lines that may follow a section
* `sectionReader`: reads a section of a description of the given kind

## Main results

* `frames_ruleLine`, `frames_actionLine`, `frames_edgeLine`, `frames_statementLine`: lines of rules
* `rel_sectionReader`: a section in front of further lines
* `startsRule_of_colon`, `startsRule_grammar_of_hasHeading`: headings that start no rule
-/

namespace Acceptors.Description

open Reader (Agree Frames)

section

variable {e b : List Char}

theorem IsLineEnd.stopsAt (he : IsLineEnd e) (marks : List Char) (hne : e ≠ []) :
    Token.stopsAt marks e = true := by
  rcases he with rfl | ⟨k, rfl, -⟩
  · exact absurd rfl hne
  · rfl

theorem takeUntil_blanks (he : IsLineEnd e) (hb : ∀ c ∈ b, isSpace c = true) :
    takeUntil (Token.stopsAt []) (b ++ e) = (b, e) := by
  induction b with
  | nil => exact Token.takeUntil_of_stop (he.stopsAt [])
  | cons c b ih =>
    obtain ⟨hc, hb⟩ := List.forall_mem_cons.mp hb
    have hstop : Token.stopsAt [] (c :: b ++ e) = false := by
      have hslash : c ≠ '/' := by
        rintro rfl
        cases hc
      rw [List.cons_append, Token.stopsAt, commentAhead_of_head hslash, isNewline_of_isSpace hc]
      rfl
    rw [List.cons_append, takeUntil, ← List.cons_append, hstop, ih hb]
    rfl

theorem isBlank_of_isSpace {c : Char} (h : isSpace c = true) : Text.isBlank c = true :=
  Token.forall_isSpace (P := fun c => Text.isBlank c = true) rfl rfl c h

theorem trim_append_blanks (hb : ∀ c ∈ b, isSpace c = true) (s : List Char) :
    Text.trim (s ++ b) = Text.trim s :=
  Text.trim_append (fun c hc => isBlank_of_isSpace (hb c hc)) s

end

theorem read_sectionOf {α : Type} (p : Phrase) (keyword : String) (r : Reader α) :
    (sectionOf p keyword r).read =
      (do Reader.lit keyword; Reader.skip; Reader.lit ":"; Reader.skip; r).read := by
  funext s
  simp only [sectionOf, heading, Reader.read_phrase, Reader.read_bind, Option.bind_assoc]

section

variable {e : List Char} (he : IsLineEnd e)

include he

/-! ## Parts of lines -/

theorem frames_stateName : Frames e Eq stateName := .token Token.frames_stateName he

theorem frames_symbol : Frames e Eq symbol := .token Token.frames_symbol he

theorem frames_heading {keyword : String} (hword : isUnbroken keyword.toList = true)
    (hne : keyword ≠ "") : Frames e Eq (heading keyword) :=
  (Frames.lit hword hne he).after (fun _ => rfl) <| (Agree.skip he).after <|
    (Agree.lit rfl (by decide) he).after (Agree.skip he)

theorem frames_sectionOf {α : Type} {R : α → α → Prop} {r : Reader α} {p : Phrase}
    {keyword : String} (hword : isUnbroken keyword.toList = true) (hne : keyword ≠ "")
    (h : Agree e R r r) : Frames e R (sectionOf p keyword r) :=
  .phrase <| (frames_heading he hword hne).after (fun _ => rfl) h

/-! ## Rules of grammars -/

theorem frames_alternative :
    Frames e (List.Forall₂ fun x y : Located (List Char) => x.value = y.value) alternative := by
  have hempty : Frames e (List.Forall₂ fun x y : Located (List Char) => x.value = y.value)
      emptyBody :=
    .map (.phrase ((Frames.lit rfl (by decide) he).orElse (.lit rfl (by decide) he)))
      fun _ _ _ => .nil
  have hsymbol := (Frames.token (p := .bodySymbol) Token.frames_bodySymbol he).located
  refine .phrase (hempty.orElse (hsymbol.bind (fun _ => rfl) fun _ _ ha => ?_))
  exact (Agree.skip he).after <| (hsymbol.agree.many hsymbol.shrinks he).bind fun _ _ has =>
    .pure (.cons ha has)

theorem frames_ruleLine :
    Frames e (fun x y => x.1 = y.1 ∧ AlternativesAlike x.2 y.2) ruleLine := by
  have halternative := (frames_alternative he).agree
  refine .phrase <| (Frames.token Token.frames_ident he).bind (fun _ => rfl) fun _ _ hhead => ?_
  refine (Agree.skip he).after <| (Agree.lit rfl (by decide) he).after <| (Agree.skip he).after ?_
  refine halternative.bind fun _ _ hfirst => (Agree.skip he).after ?_
  exact (halternative.many_after_lit rfl (by decide) he).bind fun _ _ hrest =>
    .pure ⟨hhead, .cons hfirst hrest⟩

/-! ## Rules of machines and automata -/

theorem frames_tupleOf {α : Type} {R : α → α → Prop} {r : Reader α} (h : Frames e R r) :
    Frames e (List.Forall₂ R) (tupleOf r) :=
  .orElse (.bracketed (h.agree.commaSeparated he) he) (h.map fun _ _ ha => .cons ha .nil)

theorem frames_symbolTuple : Frames e Eq symbolTuple := by
  have htuple := frames_tupleOf he (frames_symbol he)
  rw [List.forall₂_eq_eq_eq] at htuple
  exact htuple.phrase

theorem agree_directionTuple :
    Agree e (List.Forall₂ fun x y => x.value = y.value) directionTuple directionTuple :=
  (frames_tupleOf he (Frames.token Token.frames_direction he).located).agree.phrase

theorem frames_actionLine : Frames e (fun x y => x.value.Alike y.value) actionLine := by
  have htuple := frames_symbolTuple he
  refine .located <| .phrase <| htuple.bind (fun _ => rfl) fun _ _ hread => ?_
  refine (Agree.skip he).after <| (Agree.lit rfl (by decide) he).after <| (Agree.skip he).after ?_
  refine htuple.agree.bind fun _ _ hwrite => ?_
  refine (Agree.skip he).after <| (Agree.lit rfl (by decide) he).after <| (Agree.skip he).after ?_
  refine (agree_directionTuple he).bind fun _ _ hdirections => ?_
  refine (Agree.skip he).after <| (Agree.lit rfl (by decide) he).after <| (Agree.skip he).after ?_
  exact (frames_stateName he).agree.bind fun _ _ hnext => .pure ⟨hread, hwrite, hdirections, hnext⟩

theorem frames_edgeLine : Frames e Eq edgeLine := by
  have hlisted := (frames_symbol he).commaSeparated he
  refine .phrase <| hlisted.bind (fun _ => rfl) fun _ _ hsymbols => ?_
  refine (Agree.skip he).after <| (Agree.lit rfl (by decide) he).after <| (Agree.skip he).after ?_
  exact (frames_stateName he).agree.bind fun _ _ htarget => .pure (by rw [hsymbols, htarget])

theorem frames_block {α : Type} {p : Phrase} {item : Reader (Checked α)}
    (h : Frames e Checked.Alike item) (hstop : item.read (skipLines e) = none) :
    Frames e (fun b b' => BlocksAlike b.value b'.value) (block p item) := by
  refine .located <| .phrase <| (frames_stateName he).bind (fun _ => rfl) fun _ _ hstate => ?_
  refine (Agree.skip he).after <| (Agree.lit rfl (by decide) he).after <| (Agree.skip he).after ?_
  exact (h.itemLines he hstop).bind fun _ _ hitems => .pure ⟨hstate, hitems⟩

/-! ## Statements -/

theorem frames_operand : Frames e Checked.Alike operand := by
  refine .orElse (.map (Frames.token Token.frames_digits he).located fun x y hxy => ?_)
    (.map (.token Token.frames_variableName he) fun x y hxy => ?_)
  · rw [literalOf, literalOf, hxy]
    split <;> rfl
  · rw [hxy]
    exact .refl _

theorem frames_signOf {α : Type} {signs : List (String × α)}
    (hsigns : ∀ s ∈ signs, isUnbroken s.1.toList = true ∧ s.1 ≠ "") :
    Frames e Eq (signOf signs) := by
  induction signs with
  | nil => exact ⟨fun _ _ _ => .none, fun _ _ _ h => nomatch h⟩
  | cons s signs ih =>
    obtain ⟨hword, hne⟩ := hsigns s List.mem_cons_self
    exact .orElse (.map (.lit hword hne he) fun _ _ _ => rfl)
      (ih fun s hs => hsigns s (List.mem_cons_of_mem _ hs))

theorem frames_assignee : Frames e Eq assignee := by
  refine (Frames.token Token.frames_variableName he).bind (fun _ => rfl) fun _ _ hx => ?_
  exact (Agree.skip he).after <| (Agree.lit rfl (by decide) he).after <| (Agree.skip he).after <|
    .pure hx

theorem frames_computeLine : Frames e Checked.Alike computeLine := by
  have hoperand := (frames_operand he).agree
  refine .phrase <| (frames_assignee he).bind (fun _ => rfl) fun x _ hx => ?_
  subst hx
  refine hoperand.bind fun _ _ ha => (Agree.skip he).after ?_
  refine (frames_signOf he (by decide)).agree.phrase.bind fun op _ hop => (Agree.skip he).after ?_
  subst hop
  exact hoperand.bind fun _ _ hb => .pure <| ha.bind fun _ => hb.bind fun _ => .refl _

theorem frames_assignLine : Frames e Checked.Alike assignLine := by
  refine .phrase <| (frames_assignee he).bind (fun _ => rfl) fun x _ hx => ?_
  subst hx
  exact (frames_operand he).agree.bind fun _ _ ha => .pure (ha.map _)

theorem frames_haltLine : Frames e Checked.Alike haltLine :=
  .map (.phrase (.lit rfl (by decide) he)) fun _ _ _ => .refl _

theorem frames_destination : Frames e Eq destination :=
  (Frames.lit rfl (by decide) he).after (fun _ => rfl) <| (Agree.skip he).after <|
    .token Token.frames_label he

theorem frames_jumpLine : Frames e Checked.Alike jumpLine :=
  .map (.phrase (frames_destination he)) fun _ _ hl => hl ▸ .refl _

theorem frames_branchLine : Frames e Checked.Alike branchLine := by
  have hoperand := (frames_operand he).agree
  refine .phrase <| (Frames.lit rfl (by decide) he).after (fun _ => rfl) <| (Agree.skip he).after ?_
  refine hoperand.bind fun _ _ ha => (Agree.skip he).after ?_
  refine (frames_signOf he (by decide)).agree.phrase.bind fun rel _ hrel => (Agree.skip he).after ?_
  subst hrel
  refine hoperand.bind fun _ _ hb => (Agree.skip he).after ?_
  refine (frames_destination he).agree.bind fun l _ hl => .pure ?_
  subst hl
  exact ha.bind fun _ => hb.bind fun _ => .refl _

theorem frames_statementLine : Frames e Checked.Alike statementLine := by
  refine .phrase <| (Frames.token Token.frames_label he).bind (fun _ => rfl) fun l _ hl => ?_
  subst hl
  refine (Agree.skip he).after <| (Agree.lit rfl (by decide) he).after <| (Agree.skip he).after ?_
  exact ((frames_computeLine he).orElse <| (frames_assignLine he).orElse <|
    (frames_haltLine he).orElse <| (frames_jumpLine he).orElse
      (frames_branchLine he)).agree.bind fun _ _ hi => .pure (hi.map _)

/-! ## Values of sections -/

theorem agree_listOf_eq {α : Type} {r : Reader α} (h : Agree e Eq r r) :
    Agree e Eq r.listOf r.listOf :=
  (h.listOf he).mono fun _ _ hl => by rwa [List.forall₂_eq_eq_eq] at hl

theorem frames_tapesSection : Frames e Section.Alike tapesSection := by
  have hdigits : Frames e Eq (sectionOf .tapes "tapes" (.token .count Token.digits)) :=
    frames_sectionOf he rfl (by decide) (.token Token.frames_digits he)
  refine hdigits.located.map fun x y hxy => .tapes ?_
  rw [countOf, countOf, hxy]
  split <;> rfl

/-! ## Names -/

/-- The text of a name goes on over blanks at the end of its line. -/
theorem agree_text : Agree e (fun t t' => Text.trim t = Text.trim t')
    (do Reader.skip; Reader.token .text Token.text)
    (do Reader.skip; Reader.token .text Token.text) := by
  rintro s s' ⟨b, hb, rfl⟩
  have hsuffix := skipBlanks_suffix s
  simp only [Reader.read_bind, Reader.read_skip, Option.bind_some, Reader.read_token, Token.text]
  rw [skipBlanks_append he hb]
  split
  · next hnil =>
    rw [hnil, Token.upTo_eq, Token.upTo_eq, Token.takeUntil_of_stop (he.stopsAt [])]
    exact .none
  · next hne =>
    generalize skipBlanks s = t at hne hsuffix
    have hsplit := takeUntil_eq (Token.stopsAt []) t
    rw [Token.upTo_eq, Token.upTo_eq,
      Token.takeUntil_append (fun u hu => Token.stopsAt_append (he.isBreak hb) hu)]
    by_cases hrest : (takeUntil (Token.stopsAt []) t).2 = []
    · -- the name takes up the line
      rw [hrest, List.append_nil] at hsplit
      rw [if_pos hrest, takeUntil_blanks he hb, hsplit, if_neg hne, if_neg (by simp [hne])]
      refine .some ⟨?_, by simp [hrest], ?_⟩
      · rw [hsplit]
        exact (trim_append_blanks hb t).symm
      · rw [hrest]
        exact extends_append e []
    · rw [if_neg hrest]
      split
      · exact .none
      · exact .some ⟨rfl, .trans ⟨_, hsplit⟩ hsuffix, b, hb, rfl⟩

theorem frames_nameSection : Frames e Section.Alike nameSection := by
  refine .map ?_ fun _ _ ht => .name ht
  refine .of_read_eq (read_sectionOf _ _ _) ?_
  exact (Frames.lit rfl (by decide) he).after (fun _ => rfl) <| (Agree.skip he).after <|
    (Agree.lit rfl (by decide) he).after (agree_text he)

end

/-! ## Sections of a single value -/

/-- Whether the section goes on with lines of rules. -/
def Section.holdsRules : Section → Bool
  | productions _ | transitions _ | edges _ | program _ => true
  | _ => false

theorem Section.Alike.holdsRules_eq {x y : Section} (h : x.Alike y) :
    x.holdsRules = y.holdsRules := by
  cases h <;> rfl

/-- The keywords of the sections of all kinds. -/
def sectionKeywords : List String :=
  ["name", "checks", "start", "rules", "blank", "tapes", "initial", "accepting", "alphabet",
   "input", "output", "program"]

/-- Where one of the keywords stands. -/
def StartsWithKeyword (s : List Char) : Prop := ∃ k ∈ sectionKeywords, k.toList <+: s

/-- Where one of the keywords stands with a colon behind it, perhaps after blanks. -/
def HasHeading (s : List Char) : Prop :=
  ∃ k ∈ sectionKeywords, ∃ w v, s = k.toList ++ w ∧ skipBlanks w = ':' :: v

theorem HasHeading.startsWithKeyword {s : List Char} (h : HasHeading s) : StartsWithKeyword s := by
  obtain ⟨k, hk, w, -, rfl, -⟩ := h
  exact ⟨k, hk, List.prefix_append _ w⟩

theorem read_lit_append (word : String) (s : List Char) :
    (Reader.lit word).read (word.toList ++ s) = some ((), s) := by
  rw [Reader.lit]
  dsimp only
  rw [if_pos (List.isPrefixOf_iff_prefix.mpr (List.prefix_append _ s)), ← String.length_toList,
    List.drop_left]

theorem eq_append_of_read_lit {word : String} {s t : List Char} {u : Unit}
    (h : (Reader.lit word).read s = some (u, t)) : s = word.toList ++ t := by
  simp only [Reader.lit] at h
  split at h
  · next hprefix =>
    obtain ⟨-, rfl⟩ := Prod.mk.inj (Option.some.inj h)
    obtain ⟨w, rfl⟩ := List.isPrefixOf_iff_prefix.mp hprefix
    rw [← String.length_toList, List.drop_left]
  · cases h

theorem hasHeading_of_read {α : Type} {p : Phrase} {keyword : String} {r : Reader α}
    (hkeyword : keyword ∈ sectionKeywords) {s : List Char} {q : α × List Char}
    (h : (sectionOf p keyword r).read s = some q) : HasHeading s := by
  rw [read_sectionOf] at h
  obtain ⟨⟨_, w⟩, hword, h⟩ := Option.bind_eq_some_iff.mp h
  obtain ⟨⟨_, v⟩, hcolon, -⟩ := Option.bind_eq_some_iff.mp h
  exact ⟨keyword, hkeyword, w, v, eq_append_of_read_lit hword, eq_append_of_read_lit hcolon⟩

/-- A section that the lines behind it do not matter to. -/
structure ReadsValue (r : Reader Section) : Prop where
  frames : ∀ e, IsLineEnd e → Frames e Section.Alike r
  heading : ∀ s q, r.read s = some q → HasHeading s
  no_rules : ∀ s x t, r.read s = some (x, t) → x.holdsRules = false

theorem readsValue_map {α : Type} {f : α → Section} {r : Reader α} {p : Phrase} {keyword : String}
    (hframes : ∀ e, IsLineEnd e → Frames e Section.Alike (f <$> sectionOf p keyword r))
    (hkeyword : keyword ∈ sectionKeywords) (hf : ∀ a, (f a).holdsRules = false) :
    ReadsValue (f <$> sectionOf p keyword r) := by
  refine ⟨hframes, fun s q h => ?_, fun s x t h => ?_⟩
  · rw [Reader.read_map] at h
    obtain ⟨_, h, -⟩ := Option.map_eq_some_iff.mp h
    exact hasHeading_of_read hkeyword h
  · rw [Reader.read_map] at h
    obtain ⟨q, -, heq⟩ := Option.map_eq_some_iff.mp h
    rw [← (Prod.mk.inj heq).1, hf]

/-- A section whose value does not depend on its place. -/
theorem readsValue_of_agree {α : Type} {f : α → Section} {r : Reader α} {p : Phrase}
    {keyword : String} (hkeyword : keyword ∈ sectionKeywords) (hf : ∀ a, (f a).holdsRules = false)
    (h : ∀ e, IsLineEnd e → Agree e Eq r r) : ReadsValue (f <$> sectionOf p keyword r) := by
  have hword : ∀ k ∈ sectionKeywords, isUnbroken k.toList = true ∧ k ≠ "" := by decide
  obtain ⟨hunbroken, hne⟩ := hword keyword hkeyword
  refine readsValue_map (fun e he => ?_) hkeyword hf
  exact (frames_sectionOf he hunbroken hne (h e he)).map fun _ _ ha => ha ▸ .same _

theorem readsValue_nameSection : ReadsValue nameSection :=
  readsValue_map (fun _ he => frames_nameSection he) (by decide) fun _ => rfl

theorem readsValue_checksSection : ReadsValue checksSection := by
  refine readsValue_of_agree (by decide) (fun _ => rfl) fun e he => ?_
  have hwords := agree_listOf_eq he (.token (p := .word) Token.frames_word he)
  exact hwords.phrase.optional.mono fun _ _ h => rel_eq_iff.mp h

theorem readsValue_startSection : ReadsValue startSection :=
  readsValue_of_agree (by decide) (fun _ => rfl) fun _ he => .token Token.frames_ident he

theorem readsValue_initialSection : ReadsValue initialSection :=
  readsValue_of_agree (by decide) (fun _ => rfl) fun _ he => (frames_stateName he).agree

theorem readsValue_acceptingSection : ReadsValue acceptingSection :=
  readsValue_of_agree (by decide) (fun _ => rfl) fun _ he =>
    (agree_listOf_eq he (frames_stateName he).agree).phrase

theorem readsValue_blankSection : ReadsValue blankSection :=
  readsValue_of_agree (by decide) (fun _ => rfl) fun _ he => (frames_symbol he).agree

theorem readsValue_alphabetSection : ReadsValue alphabetSection :=
  readsValue_of_agree (by decide) (fun _ => rfl) fun _ he =>
    (agree_listOf_eq he (frames_symbol he).agree).phrase

theorem readsValue_inputSection : ReadsValue inputSection :=
  readsValue_of_agree (by decide) (fun _ => rfl) fun _ he => .token Token.frames_variableName he

theorem readsValue_outputSection : ReadsValue outputSection :=
  readsValue_of_agree (by decide) (fun _ => rfl) fun _ he => .token Token.frames_variableName he

theorem readsValue_tapesSection : ReadsValue tapesSection := by
  refine ⟨fun _ he => frames_tapesSection he, fun s q h => ?_, fun s x t h => ?_⟩
  all_goals
    rw [tapesSection, Reader.read_map, Reader.read_located, Option.map_map] at h
    obtain ⟨y, hy, heq⟩ := Option.map_eq_some_iff.mp h
  · exact hasHeading_of_read (by decide) hy
  · rw [← (Prod.mk.inj heq).1]
    rfl

/-! ## Sections of rules -/

/-- Reads a section of rules of a description of the given kind. -/
def rulesSection : Kind → Reader Section
  | .grammar => productionsSection
  | .machine => transitionsSection
  | .dfa => edgesSection
  | .goto => statementsSection

/-- Whether a line can be read as a rule, the name of a block or a statement. -/
def startsRule : Kind → List Char → Bool
  | .grammar, s => (ruleLine.read s).isSome
  | .machine, s => ((block .tmBlock (actionOf <$> actionLine)).read s).isSome
  | .dfa, s => ((block .dfaBlock (Except.ok (ε := Located Complaint) <$> edgeLine)).read s).isSome
  | .goto, s => (statementLine.read s).isSome

/-- Lines that may follow a section: the first of them is no rule inside a block. -/
structure IsSequel (e : List Char) : Prop where
  lineEnd : IsLineEnd e
  no_action : actionLine.read (skipLines e) = none
  no_edge : edgeLine.read (skipLines e) = none

theorem isSequel_of_skipLines {e : List Char} (he : IsLineEnd e) (hnil : skipLines e = []) :
    IsSequel e :=
  ⟨he, hnil ▸ (frames_actionLine he).shrinks.read_nil, hnil ▸ (frames_edgeLine he).shrinks.read_nil⟩

theorem startsRule_nil (kind : Kind) : startsRule kind [] = false := by
  cases kind <;> rfl

section

variable {kind : Kind} {e s s' : List Char}

theorem frames_transitionBlock (he : IsSequel e) :
    Frames e (fun b b' => BlocksAlike b.value b'.value)
      (block .tmBlock (actionOf <$> actionLine)) := by
  refine frames_block he.lineEnd
    ((frames_actionLine he.lineEnd).map fun _ _ h => actionOf_alike h) ?_
  rw [Reader.read_map, he.no_action, Option.map_none]

theorem frames_edgeBlock (he : IsSequel e) :
    Frames e (fun b b' => BlocksAlike b.value b'.value)
      (block .dfaBlock (Except.ok (ε := Located Complaint) <$> edgeLine)) := by
  refine frames_block he.lineEnd ((frames_edgeLine he.lineEnd).map fun _ _ h => h ▸ .refl _) ?_
  rw [Reader.read_map, he.no_edge, Option.map_none]

/-- Whether a line starts as a rule does not depend on the lines behind it. -/
theorem startsRule_append (kind : Kind) (he : IsSequel e) (hs : Extends e s s') :
    startsRule kind s' = startsRule kind s := by
  have hframes : ∀ {α : Type} {R : α → α → Prop} {r : Reader α}, Frames e R r →
      (r.read s').isSome = (r.read s).isSome :=
    fun h => (Reader.isSome_eq_of_rel (h.agree s s' hs)).symm
  cases kind with
  | grammar => exact hframes (frames_ruleLine he.lineEnd)
  | machine => exact hframes (frames_transitionBlock he)
  | dfa => exact hframes (frames_edgeBlock he)
  | goto => exact hframes (frames_statementLine he.lineEnd)

theorem frames_rulesSection (he : IsSequel e) (hstop : startsRule kind (skipLines e) = false) :
    Frames e Section.Alike (rulesSection kind) := by
  have hend := he.lineEnd
  have hnone : ∀ {α : Type} {r : Reader α}, (r.read (skipLines e)).isSome = false →
      r.read (skipLines e) = none :=
    fun h => Option.isNone_iff_eq_none.mp (Option.isSome_eq_false_iff.mp h)
  cases kind with
  | grammar =>
    exact (frames_sectionOf hend rfl (by decide)
      ((frames_ruleLine hend).itemLines hend (hnone hstop))).map fun _ _ h =>
        .productions (productionsOf_alike h)
  | machine =>
    exact (frames_sectionOf hend rfl (by decide)
      ((frames_transitionBlock he).itemLines hend (hnone hstop))).map fun _ _ h =>
        .transitions (checkBlocks_alike h [])
  | dfa =>
    exact (frames_sectionOf hend rfl (by decide)
      ((frames_edgeBlock he).itemLines hend (hnone hstop))).map fun _ _ h =>
        .edges (checkBlocks_alike h [])
  | goto =>
    exact (frames_sectionOf hend rfl (by decide)
      ((frames_statementLine hend).itemLines hend (hnone hstop))).map fun _ _ h =>
        .program (.gather h)

/-- A section of rules: whether there is one does not depend on where the rules end, and they end
where a line is no rule. -/
structure ReadsRules (kind : Kind) (r : Reader Section) : Prop where
  heading : ∀ s q, r.read s = some q → HasHeading s
  holdsRules : ∀ s x t, r.read s = some (x, t) → x.holdsRules = true
  isSome_eq : ∀ e s s', IsLineEnd e → Extends e s s' → (r.read s).isSome = (r.read s').isSome
  stops : ∀ s x t u, r.read s = some (x, t) → nextLine t = some u → startsRule kind u = false

theorem readsRules_map {α : Type} {f : List α → Section} {item : Reader α} {p : Phrase}
    {keyword : String} (hf : ∀ l, (f l).holdsRules = true) (hkeyword : keyword ∈ sectionKeywords)
    (hword : isUnbroken keyword.toList = true ∧ keyword ≠ "") (hitem : item.Shrinks)
    (hstarts : ∀ s, startsRule kind s = (item.read s).isSome) :
    ReadsRules kind (f <$> sectionOf p keyword (itemLines item)) := by
  refine ⟨fun s q h => ?_, fun s x t h => ?_, fun e s s' he hs => ?_, fun s x t u h hline => ?_⟩
  · rw [Reader.read_map] at h
    obtain ⟨_, h, -⟩ := Option.map_eq_some_iff.mp h
    exact hasHeading_of_read hkeyword h
  · rw [Reader.read_map] at h
    obtain ⟨q, -, heq⟩ := Option.map_eq_some_iff.mp h
    rw [← (Prod.mk.inj heq).1, hf]
  · -- behind the heading there are always lines of rules, if only none
    have hheading := (frames_heading he hword.1 hword.2).agree s s' hs
    simp only [Reader.read_map, Option.isSome_map, sectionOf, Reader.read_phrase, Reader.read_bind,
      itemLines, Reader.read_many, Option.isSome_bind, Option.isSome_some]
    generalize (heading keyword).read s = x, (heading keyword).read s' = y at hheading
    cases hheading <;> rfl
  · rw [Reader.read_map] at h
    obtain ⟨⟨l, v⟩, hread, heq⟩ := Option.map_eq_some_iff.mp h
    obtain ⟨-, rfl⟩ := Prod.mk.inj heq
    obtain ⟨w, -, hitems⟩ := Option.bind_eq_some_iff.mp hread
    have hstop := ((Reader.read_many_iff hitem.newlines).mp hitems).read_eq_none
    rw [Reader.read_newlines_bind, hline, Option.bind_some] at hstop
    rw [hstarts, hstop]
    rfl

theorem readsRules_rulesSection (kind : Kind) : ReadsRules kind (rulesSection kind) := by
  have hnil : IsSequel [] := isSequel_of_skipLines (.inl rfl) rfl
  cases kind with
  | grammar =>
    exact readsRules_map (fun _ => rfl) (by decide) (by decide)
      (frames_ruleLine hnil.lineEnd).shrinks fun _ => rfl
  | machine =>
    exact readsRules_map (fun _ => rfl) (by decide) (by decide)
      (frames_transitionBlock hnil).shrinks fun _ => rfl
  | dfa =>
    exact readsRules_map (fun _ => rfl) (by decide) (by decide)
      (frames_edgeBlock hnil).shrinks fun _ => rfl
  | goto =>
    exact readsRules_map (fun _ => rfl) (by decide) (by decide)
      (frames_statementLine hnil.lineEnd).shrinks fun _ => rfl

end

/-! ## Sections of each kind -/

section

variable {α β : Type} {R : α → β → Prop}

theorem rel_findSome? {γ : Type} {l : List γ} {f : γ → Option α} {g : γ → Option β}
    (h : ∀ c ∈ l, Option.Rel R (f c) (g c)) : Option.Rel R (l.findSome? f) (l.findSome? g) := by
  induction l with
  | nil => exact .none
  | cons c l ih =>
    obtain ⟨hc, hl⟩ := List.forall_mem_cons.mp h
    rw [List.findSome?_cons, List.findSome?_cons]
    generalize f c = x, g c = y at hc
    cases hc with
    | none => exact ih hl
    | some hab => exact .some hab

theorem rel_of_isSome_eq {x : Option α} {y : Option β} (h : x.isSome = y.isSome)
    (hR : ∀ a b, x = some a → y = some b → R a b) : Option.Rel R x y := by
  cases x with
  | none =>
    obtain rfl := Option.not_isSome_iff_eq_none.mp (h ▸ Bool.false_ne_true : ¬y.isSome = true)
    exact .none
  | some a =>
    obtain ⟨b, rfl⟩ := Option.isSome_iff_exists.mp h.symm
    exact .some (hR a b rfl rfl)

end

/-- Reads a section of a description of the given kind. -/
def sectionReader : Kind → Reader Section
  | .grammar => nameSection <|> startSection <|> productionsSection <|> checksSection
  | .machine =>
    nameSection <|> blankSection <|> tapesSection <|> initialSection <|> acceptingSection <|>
      transitionsSection <|> checksSection
  | .dfa =>
    nameSection <|> initialSection <|> acceptingSection <|> alphabetSection <|> edgesSection <|>
      checksSection
  | .goto =>
    nameSection <|> inputSection <|> outputSection <|> startSection <|> statementsSection <|>
      checksSection

theorem exists_sectionsReader_eq (kind : Kind) :
    ∃ p, sectionsReader kind = sections p (sectionReader kind) := by
  cases kind <;> exact ⟨_, rfl⟩

/-- The readers that are tried for a section of a description of the given kind. -/
def sectionReaders : Kind → List (Reader Section)
  | .grammar => [nameSection, startSection, rulesSection .grammar, checksSection]
  | .machine =>
    [nameSection, blankSection, tapesSection, initialSection, acceptingSection,
      rulesSection .machine, checksSection]
  | .dfa =>
    [nameSection, initialSection, acceptingSection, alphabetSection, rulesSection .dfa,
      checksSection]
  | .goto =>
    [nameSection, inputSection, outputSection, startSection, rulesSection .goto, checksSection]

section

variable {kind : Kind} {s : List Char}

theorem read_sectionReader (kind : Kind) (s : List Char) :
    (sectionReader kind).read s = (sectionReaders kind).findSome? fun r => r.read s := by
  have hor : ∀ (r : Reader Section) (rs : List (Reader Section)),
      ((r :: rs).findSome? fun r => r.read s) = (r.read s).or (rs.findSome? fun r => r.read s) :=
    fun r rs => by rw [List.findSome?_cons]; cases r.read s <;> rfl
  cases kind <;>
    simp only [sectionReader, sectionReaders, rulesSection, Reader.read_orElse, hor,
      List.findSome?_nil, Option.or_none]

/-- Each reader reads a value or rules. -/
theorem readsValue_or_eq (kind : Kind) :
    ∀ r ∈ sectionReaders kind, ReadsValue r ∨ r = rulesSection kind := by
  cases kind <;> simp only [sectionReaders, List.forall_mem_cons]
  case grammar =>
    exact ⟨.inl readsValue_nameSection, .inl readsValue_startSection, .inr trivial,
      .inl readsValue_checksSection, nofun⟩
  case machine =>
    exact ⟨.inl readsValue_nameSection, .inl readsValue_blankSection, .inl readsValue_tapesSection,
      .inl readsValue_initialSection, .inl readsValue_acceptingSection, .inr trivial,
      .inl readsValue_checksSection, nofun⟩
  case dfa =>
    exact ⟨.inl readsValue_nameSection, .inl readsValue_initialSection,
      .inl readsValue_acceptingSection, .inl readsValue_alphabetSection, .inr trivial,
      .inl readsValue_checksSection, nofun⟩
  case goto =>
    exact ⟨.inl readsValue_nameSection, .inl readsValue_inputSection, .inl readsValue_outputSection,
      .inl readsValue_startSection, .inr trivial, .inl readsValue_checksSection, nofun⟩

/-- What a section is read by. -/
theorem exists_reader {q : Section × List Char} (h : (sectionReader kind).read s = some q) :
    ∃ r, r.read s = some q ∧ (ReadsValue r ∨ r = rulesSection kind) := by
  rw [read_sectionReader] at h
  obtain ⟨r, hr, h⟩ := List.exists_of_findSome?_eq_some h
  exact ⟨r, h, readsValue_or_eq kind r hr⟩

theorem shrinks_sectionReader (kind : Kind) : (sectionReader kind).Shrinks := by
  have hnil : IsSequel [] := isSequel_of_skipLines (.inl rfl) rfl
  intro s x t h
  obtain ⟨r, h, hr | rfl⟩ := exists_reader h
  · exact (hr.frames [] hnil.lineEnd).shrinks s x t h
  · exact (frames_rulesSection hnil (startsRule_nil kind)).shrinks s x t h

theorem hasHeading_of_read_sectionReader {q : Section × List Char}
    (h : (sectionReader kind).read s = some q) : HasHeading s := by
  obtain ⟨r, h, hr | rfl⟩ := exists_reader h
  · exact hr.heading s q h
  · exact (readsRules_rulesSection kind).heading s q h

/-- Behind a section of rules the next line is no rule. -/
theorem not_startsRule_of_read {t u : List Char} {x : Section}
    (h : (sectionReader kind).read s = some (x, t)) (hx : x.holdsRules = true)
    (hline : nextLine t = some u) : startsRule kind u = false := by
  obtain ⟨r, h, hr | rfl⟩ := exists_reader h
  · rw [hr.no_rules s x t h] at hx
    cases hx
  · exact (readsRules_rulesSection kind).stops s x t u h hline

/-- Both sections hold rules, or neither does; and if rules end where the text goes on, the sections
are alike and the text goes on behind them. -/
def KeepsSection (stops : Prop) (e : List Char) (p p' : Section × List Char) : Prop :=
  p.1.holdsRules = p'.1.holdsRules ∧
    ((p.1.holdsRules = true → stops) → p.1.Alike p'.1 ∧ Extends e p.2 p'.2)

/-- A section in front of further lines. -/
theorem rel_sectionReader (kind : Kind) {e s' : List Char} (he : IsSequel e) (hs : Extends e s s') :
    Option.Rel (KeepsSection (startsRule kind (skipLines e) = false) e)
      ((sectionReader kind).read s) ((sectionReader kind).read s') := by
  have hframes : ∀ {stops : Prop} {r : Reader Section}, Frames e Section.Alike r →
      Option.Rel (KeepsSection stops e) (r.read s) (r.read s') := fun h =>
    Reader.rel_mono (h.agree s s' hs) fun _ _ hp => ⟨hp.1.holdsRules_eq, fun _ => ⟨hp.1, hp.2.2⟩⟩
  rw [read_sectionReader, read_sectionReader]
  refine rel_findSome? fun r hr => ?_
  rcases readsValue_or_eq kind r hr with hr | rfl
  · exact hframes (hr.frames e he.lineEnd)
  · by_cases hstop : startsRule kind (skipLines e) = false
    · exact hframes (frames_rulesSection he hstop)
    · -- rules go on over the end of the text: all that is left is that there are some
      have hrules := readsRules_rulesSection kind
      refine rel_of_isSome_eq (hrules.isSome_eq e s s' he.lineEnd hs) fun p p' hp hp' => ?_
      rw [KeepsSection, hrules.holdsRules s p.1 p.2 hp, hrules.holdsRules s' p'.1 p'.2 hp']
      exact ⟨rfl, fun hno => absurd (hno rfl) hstop⟩

/-! ## Headings -/

/-- A section starts like no rule inside a block. -/
theorem no_rule_of_startsWithKeyword (h : StartsWithKeyword s) :
    actionLine.read s = none ∧ edgeLine.read s = none ∧ s.head? ≠ some '\'' := by
  obtain ⟨k, hk, rest, rfl⟩ := h
  simp only [sectionKeywords, List.mem_cons, List.not_mem_nil, or_false] at hk
  rcases hk with rfl | rfl | rfl | rfl | rfl | rfl | rfl | rfl | rfl | rfl | rfl | rfl <;>
    exact ⟨rfl, rfl, by simp⟩

/-- The keywords of the sections of a kind. -/
def kindKeywords : Kind → List String
  | .grammar => ["name", "start", "rules", "checks"]
  | .machine => ["name", "blank", "tapes", "initial", "accepting", "rules", "checks"]
  | .dfa => ["name", "initial", "accepting", "alphabet", "rules", "checks"]
  | .goto => ["name", "input", "output", "start", "program", "checks"]

/-- A heading with the colon right behind its keyword starts no rule. -/
theorem startsRule_of_colon {k : String} (hk : k ∈ kindKeywords kind) (rest : List Char) :
    startsRule kind (k.toList ++ ':' :: rest) = false := by
  cases kind <;> simp only [kindKeywords, List.mem_cons, List.not_mem_nil, or_false] at hk
  case grammar => rcases hk with rfl | rfl | rfl | rfl <;> rfl
  case machine => rcases hk with rfl | rfl | rfl | rfl | rfl | rfl | rfl <;> rfl
  case dfa => rcases hk with rfl | rfl | rfl | rfl | rfl | rfl <;> rfl
  case goto => rcases hk with rfl | rfl | rfl | rfl | rfl | rfl <;> rfl

theorem head?_of_skipBlanks_eq_colon {w v : List Char} (h : skipBlanks w = ':' :: v) :
    ∀ c ∈ w.head?, Token.isIdentChar c = false := by
  intro c hc
  obtain ⟨w, rfl⟩ := List.head?_eq_some_iff.mp hc
  cases hspace : isSpace c with
  | true => exact Token.forall_isSpace (P := fun c => Token.isIdentChar c = false) rfl rfl c hspace
  | false =>
    rw [skipBlanks, List.dropWhile_cons_of_neg (by simp [hspace]), skipComment] at h
    split at h
    · next hcomment =>
      obtain ⟨t, ht⟩ := commentAhead_eq_true hcomment
      rw [(List.cons.inj ht).1]
      rfl
    · rw [(List.cons.inj h).1]
      rfl

/-- In a grammar no heading starts a rule. -/
theorem startsRule_grammar_of_hasHeading (h : HasHeading s) : startsRule .grammar s = false := by
  obtain ⟨k, hk, w, v, rfl, hcolon⟩ := h
  have hchars : ∀ k ∈ sectionKeywords,
      k.toList ≠ [] ∧ k.toList.all Token.isIdentChar = true := by
    decide
  obtain ⟨hne, hk⟩ := hchars k hk
  have hident : Token.ident (k.toList ++ w) = some (k, w) := by
    have hrun := Token.run_append hne (List.all_eq_true.mp hk) (head?_of_skipBlanks_eq_colon hcolon)
    rw [Token.ident, hrun]
    simp
  have hread : ruleLine.read (k.toList ++ w) = none := by
    simp only [ruleLine, Reader.read_phrase, Reader.read_bind, Reader.read_token, hident,
      Option.bind_some, Reader.read_skip, hcolon]
    rfl
  rw [startsRule, hread]
  rfl

end

end Acceptors.Description
