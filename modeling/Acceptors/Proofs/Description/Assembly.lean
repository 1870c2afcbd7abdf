import Acceptors.Description.Parse

/-!
# Assembled descriptions

A text that can be read and assembled has gone through every step: its sections were read, none of
them twice, and each part was found and accepted.

## Main results

* `found?_eq_some`, `required_eq_ok_iff`: the sections that are looked for
* `of_checkBlocks_eq_ok`: the blocks that are accepted
* `parseWith_eq_ok_iff`: the steps of a text that is read
-/

namespace Acceptors.Description

/-! ## Sections -/

section

variable {α : Type} {l : List (Located Section)} {view : Section → Option α} {a : α}

theorem found?_eq_some (h : found? l view = some a) : ∃ s ∈ l, view s.value = some a :=
  List.exists_of_findSome?_eq_some h

theorem required_eq_ok_iff {keyword : String} :
    required l keyword view = .ok a ↔ found? l view = some a := by
  rw [required]
  cases found? l view <;> simp

/-- The accepted blocks have the names and the items of the blocks that were read. -/
theorem of_checkBlocks_eq_ok {seen : List String} {read : List (Located (Block (Checked α)))}
    {blocks : List (Block α)} (h : checkBlocks seen read = .ok blocks) :
    blocks.map (fun b => (b.1, b.2.map Except.ok)) = read.map Located.value := by
  induction read generalizing seen blocks with
  | nil =>
    obtain rfl : [] = blocks := Except.ok.inj h
    rfl
  | cons b read ih =>
    rw [checkBlocks] at h
    split at h
    · cases h
    · obtain ⟨items, hitems, h⟩ := bind_eq_ok_iff.mp h
      obtain ⟨rest, hrest, h⟩ := bind_eq_ok_iff.mp h
      obtain rfl : (b.value.1, items) :: rest = blocks := Except.ok.inj h
      rw [List.map_cons, List.map_cons, ih hrest, ← gather_eq_ok_iff.mp hitems]

end

/-! ## Texts -/

theorem readSections_eq_ok_iff {r : Reader (List (Located Section))} {text : List Char}
    {l : List (Located Section)} :
    readSections r text = .ok l ↔ ∃ rest, r.read text = some (l, rest) := by
  rw [readSections]
  cases r.read text <;> simp [Prod.ext_iff]

theorem parseWith_eq_ok_iff {α : Type} {r : Reader (List (Located Section))}
    {assemble : List (Located Section) → Except Refusal (String × α)} {wrap : α → Automaton}
    {text : List Char} {defn : Definition} :
    parseWith r assemble wrap text = .ok defn ↔ ∃ l name a, readSections r text = .ok l ∧
      unrepeated [] l = .ok () ∧ assemble l = .ok (name, a) ∧
        { name, checks := givenChecks l, automaton := wrap a } = defn := by
  rw [parseWith]
  constructor
  · intro h
    obtain ⟨l, hl, h⟩ := bind_eq_ok_iff.mp h
    obtain ⟨u, hu, h⟩ := bind_eq_ok_iff.mp h
    obtain ⟨⟨name, a⟩, ha, h⟩ := bind_eq_ok_iff.mp h
    exact ⟨l, name, a, hl, mapError_eq_ok_iff.mp hu, mapError_eq_ok_iff.mp ha, Except.ok.inj h⟩
  · rintro ⟨l, name, a, hl, hu, ha, rfl⟩
    rw [hl]
    change ((unrepeated [] l).mapError (Located.fault text) >>= _) = _
    rw [hu]
    change ((assemble l).mapError (Refusal.fault text) >>= _) = _
    rw [ha]
    rfl

end Acceptors.Description
