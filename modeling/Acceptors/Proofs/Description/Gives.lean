import Acceptors.Description.Reader

/-!
# What readers give

A property of all values that a reader gives follows from properties of the readers it is made of:
the values of a list are those of its items, and a choice gives what both readers give.

## Main definitions

* `Reader.Gives`: all values that are read have a property

## Main results

* `Gives.bind`, `Gives.orElse`, `Gives.many`, `Gives.listOf`, …: one rule for each combination
-/

namespace Acceptors.Description

namespace Reader

variable {α β : Type} {P : α → Prop} {Q : β → Prop} {r r' : Reader α}

/-- All values that the reader gives have the property. -/
def Gives (r : Reader α) (P : α → Prop) : Prop := ∀ s a t, r.read s = some (a, t) → P a

namespace Gives

theorem mono {P' : α → Prop} (h : r.Gives P) (himp : ∀ a, P a → P' a) : r.Gives P' :=
  fun s a t ha => himp a (h s a t ha)

/-! ## Sequences -/

theorem pure {a : α} (h : P a) : (Pure.pure a : Reader α).Gives P := by
  intro s b t hb
  obtain ⟨rfl, -⟩ := Prod.mk.inj (Option.some.inj hb)
  exact h

theorem bind {f : α → Reader β} (h : r.Gives P) (hf : ∀ a, P a → (f a).Gives Q) :
    (r >>= f).Gives Q := by
  intro s b t hb
  rw [read_bind] at hb
  obtain ⟨⟨a, u⟩, ha, hb⟩ := Option.bind_eq_some_iff.mp hb
  exact hf a (h s a u ha) u b t hb

/-- The values of a sequence, whatever is read first. -/
theorem after {f : α → Reader β} (hf : ∀ a, (f a).Gives Q) : (r >>= f).Gives Q :=
  bind (P := fun _ => True) (fun _ _ _ _ => trivial) fun a _ => hf a

theorem map {f : α → β} (h : r.Gives fun a => Q (f a)) : (f <$> r).Gives Q := by
  intro s b t hb
  rw [read_map] at hb
  obtain ⟨⟨a, u⟩, ha, hb⟩ := Option.map_eq_some_iff.mp hb
  obtain ⟨rfl, -⟩ := Prod.mk.inj hb
  exact h s a u ha

theorem phrase {p : Phrase} (h : r.Gives P) : (Reader.phrase p r).Gives P := h

theorem located (h : r.Gives P) : r.located.Gives fun x => P x.value := by
  intro s x t hx
  rw [read_located] at hx
  obtain ⟨⟨a, u⟩, ha, hx⟩ := Option.map_eq_some_iff.mp hx
  obtain ⟨rfl, -⟩ := Prod.mk.inj hx
  exact h s a u ha

/-! ## Choices -/

theorem orElse (h : r.Gives P) (h' : r'.Gives P) : (r <|> r').Gives P := by
  intro s a t ha
  rw [read_orElse, Option.or_eq_some_iff] at ha
  rcases ha with ha | ⟨-, ha⟩
  · exact h s a t ha
  · exact h' s a t ha

theorem optional (h : r.Gives P) : r.optional.Gives fun a => ∀ b ∈ a, P b := by
  refine orElse (map fun s a t ha b hb => ?_) (pure fun b hb => nomatch hb)
  obtain rfl := Option.some.inj hb
  exact h s a t ha

/-! ## Repetitions -/

theorem of_mem_readMany (h : r.Gives P) {fuel s : List Char} {a : α}
    (ha : a ∈ (readMany r fuel s).1) : P a := by
  induction fuel generalizing s with
  | nil => cases ha
  | cons _ fuel ih =>
    rw [readMany] at ha
    split at ha
    · cases ha
    · next b t hb =>
      rcases List.mem_cons.mp ha with rfl | ha
      · exact h _ a t hb
      · exact ih ha

theorem many (h : r.Gives P) : r.many.Gives fun l => ∀ a ∈ l, P a := by
  intro s l t hl a ha
  rw [read_many] at hl
  obtain ⟨rfl, -⟩ := Prod.mk.inj (Option.some.inj hl)
  exact h.of_mem_readMany ha

theorem commaSeparated (h : r.Gives P) : r.commaSeparated.Gives fun l => ∀ a ∈ l, P a := by
  refine bind h fun a ha => after fun _ => bind (many (after fun _ => after fun _ => h)) ?_
  exact fun as has => pure fun b hb => (List.mem_cons.mp hb).elim (fun hba => hba ▸ ha) (has b)

theorem bracketed (h : r.Gives P) : r.bracketed.Gives P :=
  after fun _ => after fun _ => bind h fun _ ha => after fun _ => after fun _ => pure ha

theorem listOf (h : r.Gives P) : r.listOf.Gives fun l => ∀ a ∈ l, P a := by
  refine orElse (bracketed (map fun s found t hfound => ?_)) (commaSeparated h)
  have hitems := optional (commaSeparated h) s found t hfound
  cases found with
  | none => exact fun a ha => nomatch ha
  | some l => exact hitems l rfl

end Gives

end Reader

end Acceptors.Description
