import Acceptors.Proofs.Description.Assembly
import Mathlib.Data.List.Forall2
import Mathlib.Data.List.Nodup

/-!
# Sections that are alike

Two texts with the same sections in another order hold the same values, but not in the same places,
and a place counts only where there is something to complain about. Sections are alike if they
differ in places and in the white space around a name. Lists of sections in which no keyword occurs
twice describe the same if each section of one is like a section of the other.

## Main definitions

* `Checked.Alike`, `Section.Alike`: values and sections that are the same apart from places
* `Section.Views`: what is seen of a section depends on its value only
* `Rearranged`: the sections of two lists are alike, in any order
* `assembled`: the definition that sections describe

## Main results

* `Rearranged.rel_found?`: alike sections are found
* `Rearranged.assembled_eq`: lists of alike sections describe the same
* `parse_eq_ok_iff`: a text is read and its sections are assembled
-/

namespace Acceptors.Description

/-! ## Results -/

section

variable {ε ε' α β : Type}

theorem toOption_bind (x : Except ε α) (f : α → Except ε β) :
    (x >>= f).toOption = x.toOption.bind fun a => (f a).toOption := by
  cases x <;> rfl

theorem toOption_bind_congr {x y : Except ε α} {f g : α → Except ε β} (h : x.toOption = y.toOption)
    (hfg : ∀ a, (f a).toOption = (g a).toOption) : (x >>= f).toOption = (y >>= g).toOption := by
  rw [toOption_bind, toOption_bind, h]
  exact congrArg _ (funext hfg)

theorem toOption_map (x : Except ε α) (f : α → β) : (x.map f).toOption = x.toOption.map f := by
  cases x <;> rfl

theorem toOption_mapError (x : Except ε α) (f : ε → ε') : (x.mapError f).toOption = x.toOption := by
  cases x <;> rfl

theorem toOption_eq_some_iff {x : Except ε α} {a : α} : x.toOption = some a ↔ x = .ok a := by
  cases x <;> simp [Except.toOption]

theorem rel_refl {R : α → α → Prop} (hR : ∀ a, R a a) (x : Option α) : Option.Rel R x x := by
  cases x with
  | none => exact .none
  | some a => exact .some (hR a)

theorem rel_eq_iff {x y : Option α} : Option.Rel Eq x y ↔ x = y := by
  constructor
  · intro h
    cases h with
    | none => rfl
    | some h => rw [h]
  · rintro rfl
    exact rel_refl (fun _ => rfl) x

end

/-! ## Checked values -/

namespace Checked

variable {α β : Type}

/-- The results are one value, or both are complaints. -/
def Alike (x y : Checked α) : Prop := x.toOption = y.toOption

namespace Alike

theorem refl (x : Checked α) : Alike x x := Eq.refl _

theorem bind {x y : Checked α} {f g : α → Checked β} (h : Alike x y)
    (hfg : ∀ a, Alike (f a) (g a)) : Alike (x >>= f) (y >>= g) :=
  toOption_bind_congr h hfg

theorem map {x y : Checked α} (h : Alike x y) (f : α → β) : Alike (x.map f) (y.map f) := by
  rw [Alike, toOption_map, toOption_map, h]

theorem gather {l l' : List (Checked α)} (h : List.Forall₂ Alike l l') :
    Alike (gather l) (gather l') := by
  induction h with
  | nil => rfl
  | @cons x y l l' hxy _ ih =>
    cases x with
    | error =>
      cases y with
      | error => rfl
      | ok => cases hxy
    | ok =>
      cases y with
      | error => cases hxy
      | ok =>
        obtain rfl := Option.some.inj hxy
        exact ih.map _

end Alike

end Checked

/-- The blocks belong to one state and have alike items. -/
def BlocksAlike {α : Type} (b b' : Block (Checked α)) : Prop :=
  b.1 = b'.1 ∧ List.Forall₂ Checked.Alike b.2 b'.2

theorem checkBlocks_alike {α : Type} {l l' : List (Located (Block (Checked α)))}
    (h : List.Forall₂ (fun b b' => BlocksAlike b.value b'.value) l l') (seen : List String) :
    Checked.Alike (checkBlocks seen l) (checkBlocks seen l') := by
  induction h generalizing seen with
  | nil => rfl
  | cons hb _ ih =>
    rw [checkBlocks, checkBlocks, ← hb.1]
    split
    · rfl
    · exact (Checked.Alike.gather hb.2).bind fun items => (ih _).bind fun rest => .refl _

/-! ## Rules -/

/-- Alternatives with the same symbols, as they are written. -/
def AlternativesAlike : List Alternative → List Alternative → Prop :=
  List.Forall₂ (List.Forall₂ fun x y => x.value = y.value)

/-- Action lines that say the same. -/
def ActionLine.Alike (x y : ActionLine) : Prop :=
  x.read = y.read ∧ x.write = y.write ∧
    List.Forall₂ (fun c d => c.value = d.value) x.directions y.directions ∧ x.next = y.next

theorem classify_alike (heads : List String) {x y : Located (List Char)} (h : x.value = y.value) :
    Checked.Alike (classify heads x) (classify heads y) := by
  rw [classify.eq_def, classify.eq_def, h]
  split
  · rfl
  · split
    · rfl
    · split <;> rfl

theorem productionsOf_alike {l l' : List (String × List Alternative)}
    (h : List.Forall₂ (fun x y => x.1 = y.1 ∧ AlternativesAlike x.2 y.2) l l') :
    Checked.Alike (productionsOf l) (productionsOf l') := by
  have hheads : l.map Prod.fst = l'.map Prod.fst := by
    induction h with
    | nil => rfl
    | cons hxy _ ih => rw [List.map_cons, List.map_cons, hxy.1, ih]
  rw [productionsOf, productionsOf, hheads]
  generalize l'.map Prod.fst = heads
  refine .gather (List.rel_flatMap h fun x y hxy => List.rel_map (fun a a' ha => ?_) hxy.2)
  rw [hxy.1]
  exact (Checked.Alike.gather (List.rel_map (fun _ _ hx => classify_alike heads hx) ha)).map _

theorem actionOf_alike {x y : Located ActionLine} (h : x.value.Alike y.value) :
    Checked.Alike (actionOf x) (actionOf y) := by
  obtain ⟨hread, hwrite, hdirections, hnext⟩ := h
  have hgather : Checked.Alike (gather (x.value.directions.map directionOf))
      (gather (y.value.directions.map directionOf)) := by
    refine .gather (List.rel_map (fun c d hcd => ?_) hdirections)
    rw [directionOf, directionOf, hcd]
    split <;> rfl
  rw [actionOf, actionOf]
  refine hgather.bind fun directions => ?_
  rw [hread, hwrite, hnext]
  split <;> rfl

/-! ## Sections -/

namespace Section

/-- The sections are the same apart from the places of complaints and the white space around a
name. -/
inductive Alike : Section → Section → Prop where
  | same (x : Section) : Alike x x
  | name {t t' : List Char} (h : Text.trim t = Text.trim t') : Alike (.name t) (.name t')
  | productions {x y : Checked (List Production)} (h : Checked.Alike x y) :
    Alike (.productions x) (.productions y)
  | tapes {x y : Checked Nat} (h : Checked.Alike x y) : Alike (.tapes x) (.tapes y)
  | transitions {x y : Checked (List (Block Transition))} (h : Checked.Alike x y) :
    Alike (.transitions x) (.transitions y)
  | edges {x y : Checked (List (Block EdgeLine))} (h : Checked.Alike x y) :
    Alike (.edges x) (.edges y)
  | program {x y : Checked (List Goto.Statement)} (h : Checked.Alike x y) :
    Alike (.program x) (.program y)

namespace Alike

variable {x y z : Section}

theorem symm (h : x.Alike y) : y.Alike x := by
  cases h with
  | same => exact .same _
  | name h => exact .name h.symm
  | productions h => exact .productions h.symm
  | tapes h => exact .tapes h.symm
  | transitions h => exact .transitions h.symm
  | edges h => exact .edges h.symm
  | program h => exact .program h.symm

theorem trans (h : x.Alike y) (h' : y.Alike z) : x.Alike z := by
  cases h with
  | same => exact h'
  | name h => cases h' with
    | same => exact .name h
    | name h' => exact .name (h.trans h')
  | productions h => cases h' with
    | same => exact .productions h
    | productions h' => exact .productions (h.trans h')
  | tapes h => cases h' with
    | same => exact .tapes h
    | tapes h' => exact .tapes (h.trans h')
  | transitions h => cases h' with
    | same => exact .transitions h
    | transitions h' => exact .transitions (h.trans h')
  | edges h => cases h' with
    | same => exact .edges h
    | edges h' => exact .edges (h.trans h')
  | program h => cases h' with
    | same => exact .program h
    | program h' => exact .program (h.trans h')

theorem keyword_eq (h : x.Alike y) : x.keyword = y.keyword := by
  cases h <;> rfl

end Alike

/-- The view sees sections of one keyword only, and of alike sections related values. -/
structure Views {α : Type} (keyword : String) (R : α → α → Prop) (view : Section → Option α) :
    Prop where
  keyword_eq : ∀ x a, view x = some a → x.keyword = keyword
  rel : ∀ x y, x.Alike y → Option.Rel R (view x) (view y)

theorem views_name : Views "name" (fun t t' => Text.trim t = Text.trim t') name? where
  keyword_eq x t h := by cases x <;> first | rfl | cases h
  rel x y h := by
    cases h with
    | same => exact rel_refl (fun t => Eq.refl (Text.trim t)) _
    | name h => exact .some h
    | _ => exact .none

theorem views_checks : Views "checks" Eq checks? where
  keyword_eq x t h := by cases x <;> first | rfl | cases h
  rel x y h := by cases h <;> exact rel_refl (fun _ => rfl) _

theorem views_start : Views "start" Eq start? where
  keyword_eq x t h := by cases x <;> first | rfl | cases h
  rel x y h := by cases h <;> exact rel_refl (fun _ => rfl) _

theorem views_initial : Views "initial" Eq initial? where
  keyword_eq x t h := by cases x <;> first | rfl | cases h
  rel x y h := by cases h <;> exact rel_refl (fun _ => rfl) _

theorem views_accepting : Views "accepting" Eq accepting? where
  keyword_eq x t h := by cases x <;> first | rfl | cases h
  rel x y h := by cases h <;> exact rel_refl (fun _ => rfl) _

theorem views_productions : Views "rules" Checked.Alike productions? where
  keyword_eq x t h := by cases x <;> first | rfl | cases h
  rel x y h := by
    cases h with
    | same => exact rel_refl .refl _
    | productions h => exact .some h
    | _ => exact .none

theorem views_blank : Views "blank" Eq blank? where
  keyword_eq x t h := by cases x <;> first | rfl | cases h
  rel x y h := by cases h <;> exact rel_refl (fun _ => rfl) _

theorem views_tapes : Views "tapes" Checked.Alike tapes? where
  keyword_eq x t h := by cases x <;> first | rfl | cases h
  rel x y h := by
    cases h with
    | same => exact rel_refl .refl _
    | tapes h => exact .some h
    | _ => exact .none

theorem views_transitions : Views "rules" Checked.Alike transitions? where
  keyword_eq x t h := by cases x <;> first | rfl | cases h
  rel x y h := by
    cases h with
    | same => exact rel_refl .refl _
    | transitions h => exact .some h
    | _ => exact .none

theorem views_alphabet : Views "alphabet" Eq alphabet? where
  keyword_eq x t h := by cases x <;> first | rfl | cases h
  rel x y h := by cases h <;> exact rel_refl (fun _ => rfl) _

theorem views_edges : Views "rules" Checked.Alike edges? where
  keyword_eq x t h := by cases x <;> first | rfl | cases h
  rel x y h := by
    cases h with
    | same => exact rel_refl .refl _
    | edges h => exact .some h
    | _ => exact .none

theorem views_input : Views "input" Eq input? where
  keyword_eq x t h := by cases x <;> first | rfl | cases h
  rel x y h := by cases h <;> exact rel_refl (fun _ => rfl) _

theorem views_output : Views "output" Eq output? where
  keyword_eq x t h := by cases x <;> first | rfl | cases h
  rel x y h := by cases h <;> exact rel_refl (fun _ => rfl) _

theorem views_program : Views "program" Checked.Alike program? where
  keyword_eq x t h := by cases x <;> first | rfl | cases h
  rel x y h := by
    cases h with
    | same => exact rel_refl .refl _
    | program h => exact .some h
    | _ => exact .none

end Section

/-! ## Lists of sections -/

/-- The keywords of the sections. -/
def keywords (l : List (Located Section)) : List String := l.map fun s => s.value.keyword

theorem unrepeated_eq_ok_iff {l : List (Located Section)} :
    unrepeated [] l = .ok () ↔ (keywords l).Nodup := by
  have hseen : ∀ seen, unrepeated seen l = .ok () ↔
      (keywords l).Nodup ∧ ∀ k ∈ keywords l, k ∉ seen := by
    induction l with
    | nil => simp [unrepeated, keywords]
    | cons s l ih =>
      intro seen
      rw [unrepeated, keywords, List.map_cons, List.nodup_cons, List.forall_mem_cons]
      split
      · next h =>
        refine ⟨fun hok => (nomatch hok), fun hno => ?_⟩
        exact absurd (List.contains_iff_mem.mp h) hno.2.1
      · next h =>
        rw [ih, ← keywords]
        simp only [List.contains_iff_mem] at h
        constructor
        · rintro ⟨hnodup, hseen⟩
          refine ⟨⟨fun hs => hseen _ hs List.mem_cons_self, hnodup⟩, h, fun k hk hmem => ?_⟩
          exact hseen k hk (List.mem_cons_of_mem _ hmem)
        · rintro ⟨⟨hs, hnodup⟩, -, hseen⟩
          refine ⟨hnodup, fun k hk hmem => ?_⟩
          rcases List.mem_cons.mp hmem with rfl | hmem
          · exact hs hk
          · exact hseen k hk hmem
  simp [hseen]

/-- No keyword occurs twice in either list, and each section of one is like a section of the
other. -/
structure Rearranged (l l' : List (Located Section)) : Prop where
  nodup : (keywords l).Nodup
  nodup' : (keywords l').Nodup
  forth : ∀ s ∈ l, ∃ s' ∈ l', s.value.Alike s'.value
  back : ∀ s' ∈ l', ∃ s ∈ l, s.value.Alike s'.value

section

variable {α : Type} {k : String} {R : α → α → Prop} {view : Section → Option α}
  {l l' : List (Located Section)}

/-- Where no keyword occurs twice, the section that is found is the only one that is seen. -/
theorem found?_eq_some_iff (hnodup : (keywords l).Nodup) (hview : Section.Views k R view) {a : α} :
    found? l view = some a ↔ ∃ s ∈ l, view s.value = some a := by
  refine ⟨fun h => found?_eq_some h, ?_⟩
  rintro ⟨s, hs, ha⟩
  cases hfound : found? l view with
  | none =>
    rw [found?, List.findSome?_eq_none_iff] at hfound
    rw [hfound s hs] at ha
    cases ha
  | some b =>
    obtain ⟨s', hs', hb⟩ := found?_eq_some hfound
    have hkeyword := (hview.keyword_eq _ _ hb).trans (hview.keyword_eq _ _ ha).symm
    obtain rfl := List.inj_on_of_nodup_map hnodup hs' hs hkeyword
    rw [← hb, ha]

theorem Rearranged.rel_found? (h : Rearranged l l') (hview : Section.Views k R view) :
    Option.Rel R (found? l view) (found? l' view) := by
  have hiff := fun a => found?_eq_some_iff h.nodup hview (a := a)
  have hiff' := fun a => found?_eq_some_iff h.nodup' hview (a := a)
  cases hfound : found? l view with
  | some a =>
    obtain ⟨s, hs, ha⟩ := (hiff a).mp hfound
    obtain ⟨s', hs', halike⟩ := h.forth s hs
    have hrel := hview.rel _ _ halike
    rw [ha] at hrel
    generalize hb : view s'.value = y at hrel
    cases hrel with
    | @some _ b hab => exact (hiff' b).mpr ⟨s', hs', hb⟩ ▸ .some hab
  | none =>
    cases hfound' : found? l' view with
    | none => exact .none
    | some b =>
      -- a section that is seen in the second list is like one of the first
      obtain ⟨s', hs', hb⟩ := (hiff' b).mp hfound'
      obtain ⟨s, hs, halike⟩ := h.back s' hs'
      have hrel := hview.rel _ _ halike
      rw [hb] at hrel
      generalize ha : view s.value = x at hrel
      cases hrel with
      | @some a _ hab => rw [(hiff a).mpr ⟨s, hs, ha⟩] at hfound; cases hfound

end

/-! ## What sections describe -/

section

variable {α β : Type} {l l' : List (Located Section)}

/-- A section that must be there, and what is made of it. -/
theorem toOption_required_bind (keyword : String) (view : Section → Option α)
    (f : α → Except Refusal β) :
    (required l keyword view >>= f).toOption = (found? l view).bind fun a => (f a).toOption := by
  rw [toOption_bind, required]
  cases found? l view <;> rfl

theorem Rearranged.givenChecks_eq (h : Rearranged l l') : givenChecks l = givenChecks l' := by
  rw [givenChecks, givenChecks, rel_eq_iff.mp (h.rel_found? Section.views_checks)]

theorem Rearranged.toOption_givenName (h : Rearranged l l') :
    (givenName l).toOption = (givenName l').toOption := by
  rw [givenName, givenName, toOption_map, toOption_map, required, required]
  have hrel := h.rel_found? Section.views_name
  generalize found? l Section.name? = x, found? l' Section.name? = x' at hrel
  cases hrel with
  | none => rfl
  | some ht => exact congrArg (fun t => some (String.ofList t)) ht

/-- A value that is seen in a section that must be there. -/
theorem Rearranged.bind_required (h : Rearranged l l') {k : String} {view : Section → Option α}
    (hview : Section.Views k Eq view) {f f' : α → Except Refusal β}
    (hf : ∀ a, (f a).toOption = (f' a).toOption) :
    (required l k view >>= f).toOption = (required l' k view >>= f').toOption := by
  rw [toOption_required_bind, toOption_required_bind, rel_eq_iff.mp (h.rel_found? hview)]
  exact congrArg _ (funext hf)

/-- A checked value that is seen in a section that must be there. -/
theorem Rearranged.bind_accept (h : Rearranged l l') {k : String}
    {view : Section → Option (Checked α)} (hview : Section.Views k Checked.Alike view)
    {f f' : α → Except Refusal β} (hf : ∀ a, (f a).toOption = (f' a).toOption) :
    (required l k view >>= fun x => x.accept >>= f).toOption =
      (required l' k view >>= fun x => x.accept >>= f').toOption := by
  rw [toOption_required_bind, toOption_required_bind]
  have hrel := h.rel_found? hview
  generalize found? l view = x, found? l' view = x' at hrel
  cases hrel with
  | none => rfl
  | some hxy =>
    simp only [Option.bind_some, toOption_bind, Checked.accept, toOption_mapError, hf]
    rw [hxy]

theorem Rearranged.startSymbol_eq (h : Rearranged l l') (productions : List Production) :
    startSymbol l productions = startSymbol l' productions := by
  rw [startSymbol.eq_def, startSymbol.eq_def, rel_eq_iff.mp (h.rel_found? Section.views_start)]

theorem Rearranged.initialState_eq (h : Rearranged l l') (blocks : List (Block α)) :
    initialState l blocks = initialState l' blocks := by
  rw [initialState.eq_def, initialState.eq_def, rel_eq_iff.mp (h.rel_found? Section.views_initial)]

theorem Rearranged.toOption_givenTapes (h : Rearranged l l') :
    (givenTapes l).toOption = (givenTapes l').toOption := by
  rw [givenTapes, givenTapes]
  have hrel := h.rel_found? Section.views_tapes
  generalize found? l Section.tapes? = x, found? l' Section.tapes? = x' at hrel
  cases hrel with
  | none => rfl
  | some hxy => simp only [toOption_mapError, toOption_map]; rw [hxy]

/-- The only state of the list of accepting states is found without its place. -/
theorem toOption_onlyState_bind (f : String → Except Refusal β) :
    (acceptingStates l >>= fun states => (onlyState states).accept >>= f).toOption =
      (found? l Section.accepting?).bind fun states =>
        ((onlyState ⟨states, [], []⟩).toOption).bind fun state => (f state).toOption := by
  have hfound : found? l Section.accepting? =
      (l.findSome? fun s => s.value.accepting?.map fun states =>
        (⟨states, s.before, s.after⟩ : Located (List String))).map Located.value := by
    rw [found?, List.map_findSome?]
    congr 1
    funext s
    simp [Function.comp_def]
  rw [hfound, toOption_bind, acceptingStates]
  generalize (l.findSome? _) = x
  cases x with
  | none => rfl
  | some states =>
    have honly : (onlyState states).toOption = (onlyState ⟨states.value, [], []⟩).toOption := by
      obtain ⟨_ | ⟨_, _ | _⟩, _, _⟩ := states <;> rfl
    change ((onlyState states).accept >>= f).toOption = _
    rw [toOption_bind, Checked.accept, toOption_mapError, honly]
    rfl

theorem Rearranged.toOption_grammarOf (h : Rearranged l l') :
    (grammarOf l).toOption = (grammarOf l').toOption := by
  rw [grammarOf, grammarOf]
  refine toOption_bind_congr h.toOption_givenName fun name => ?_
  refine h.bind_accept Section.views_productions fun productions => ?_
  rw [h.startSymbol_eq]

theorem Rearranged.toOption_machineOf (h : Rearranged l l') :
    (machineOf l).toOption = (machineOf l').toOption := by
  rw [machineOf, machineOf]
  refine toOption_bind_congr h.toOption_givenName fun name => ?_
  refine toOption_bind_congr h.toOption_givenTapes fun tapes => ?_
  rw [toOption_onlyState_bind, toOption_onlyState_bind,
    rel_eq_iff.mp (h.rel_found? Section.views_accepting)]
  congr 1
  funext states
  congr 1
  funext final
  refine h.bind_accept Section.views_transitions fun blocks => ?_
  rw [h.initialState_eq, rel_eq_iff.mp (h.rel_found? Section.views_blank)]

theorem Rearranged.toOption_dfaOf (h : Rearranged l l') :
    (dfaOf l).toOption = (dfaOf l').toOption := by
  rw [dfaOf, dfaOf]
  refine toOption_bind_congr h.toOption_givenName fun name => ?_
  refine h.bind_required Section.views_accepting fun accepting => ?_
  refine h.bind_accept Section.views_edges fun blocks => ?_
  rw [h.initialState_eq, rel_eq_iff.mp (h.rel_found? Section.views_alphabet)]

theorem Rearranged.toOption_programOf (h : Rearranged l l') :
    (programOf l).toOption = (programOf l').toOption := by
  rw [programOf, programOf]
  refine toOption_bind_congr h.toOption_givenName fun name => ?_
  refine h.bind_required Section.views_input fun input => ?_
  refine h.bind_required Section.views_output fun output => ?_
  refine h.bind_accept Section.views_program fun statements => ?_
  rw [rel_eq_iff.mp (h.rel_found? Section.views_start)]

end

/-! ## Texts -/

/-- The definition of the given kind that sections describe, if they describe one. -/
def assembled (l : List (Located Section)) : Kind → Option Definition
  | .grammar => (grammarOf l).toOption.map fun (name, g) => ⟨name, givenChecks l, .grammar g⟩
  | .machine => (machineOf l).toOption.map fun (name, m) => ⟨name, givenChecks l, .machine m⟩
  | .dfa => (dfaOf l).toOption.map fun (name, d) => ⟨name, givenChecks l, .dfa d⟩
  | .goto => (programOf l).toOption.map fun (name, p) => ⟨name, givenChecks l, .goto p⟩

/-- Reads the sections of a description of the given kind. -/
def sectionsReader : Kind → Reader (List (Located Section))
  | .grammar => grammarSections
  | .machine => machineSections
  | .dfa => dfaSections
  | .goto => programSections

theorem Rearranged.assembled_eq {l l' : List (Located Section)} (h : Rearranged l l')
    (kind : Kind) : assembled l kind = assembled l' kind := by
  cases kind with
  | grammar => rw [assembled, assembled, h.toOption_grammarOf, h.givenChecks_eq]
  | machine => rw [assembled, assembled, h.toOption_machineOf, h.givenChecks_eq]
  | dfa => rw [assembled, assembled, h.toOption_dfaOf, h.givenChecks_eq]
  | goto => rw [assembled, assembled, h.toOption_programOf, h.givenChecks_eq]

/-- A text is read if its sections can be read, no keyword occurs twice, and they describe
something. -/
theorem parse_eq_ok_iff {kind : Kind} {text : List Char} {d : Definition} :
    parse kind text = .ok d ↔ ∃ l u, (sectionsReader kind).read (Text.trim text) = some (l, u) ∧
      (keywords l).Nodup ∧ assembled l kind = some d := by
  have hwith : ∀ {α : Type} (r : Reader (List (Located Section)))
      (assemble : List (Located Section) → Except Refusal (String × α)) (wrap : α → Automaton),
      parseWith r assemble wrap (Text.trim text) = .ok d ↔
        ∃ l u, r.read (Text.trim text) = some (l, u) ∧ (keywords l).Nodup ∧
          ((assemble l).toOption.map fun x => ⟨x.1, givenChecks l, wrap x.2⟩) = some d := by
    intro α r assemble wrap
    simp only [parseWith_eq_ok_iff, readSections_eq_ok_iff, unrepeated_eq_ok_iff,
      Option.map_eq_some_iff, toOption_eq_some_iff, Prod.exists]
    constructor
    · rintro ⟨l, name, a, ⟨u, hl⟩, hnodup, ha, rfl⟩
      exact ⟨l, u, hl, hnodup, name, a, ha, rfl⟩
    · rintro ⟨l, u, hl, hnodup, name, a, ha, rfl⟩
      exact ⟨l, name, a, ⟨u, hl⟩, hnodup, ha, rfl⟩
  cases kind <;> exact hwith _ _ _

end Acceptors.Description
