import Acceptors.Proofs.Dfa.Classes

/-!
# Names of classes

A class is named after its members. The name of a class is the name of its only member or starts
with that of its first member behind a brace, so names without braces and commas can be read off
it, and classes with different members then bear different names.

## Main definitions

* `Dfa.Table.classNameOf`: the name of the class that holds the state of a name
* `Dfa.IsPlain`: a name without braces and commas

## Main results

* `nameOf_classOf`: the number and the name of a class
* `eq_of_className_eq`: a class name determines the first member
* `nodup_names_quotient`: the names of the quotient are distinct if no state bears a brace or comma
-/

namespace Acceptors

namespace Dfa

variable {d q : Dfa} {s : Nat}

/-- The name of the class that holds the state of the given name. -/
def Table.classNameOf (t : Table) (name : String) : String :=
  className ((t.classes.find? fun members => members.contains name).getD [])

/-! ## Names and numbers -/

theorem nameOf_injOn (h : d.names.Nodup) {r : Nat} (hs : s < d.states.length)
    (hr : r < d.states.length) (heq : d.nameOf s = d.nameOf r) : s = r := by
  have hs' := index?_nameOf h hs
  rw [heq, index?_nameOf h hr] at hs'
  exact (Option.some.inj hs').symm

theorem nameOf_minimize (hd : d.IsComplete) : d.minimize.nameOf = d.nameOf := by
  funext s
  rw [Table.nameOf, (isExact_minimize hd).names_eq, nameOf]

/-- The class with a number bears the name of the class that holds a state of that class. -/
theorem nameOf_classOf (hd : d.IsComplete) (hnames : d.names.Nodup)
    (hq : d.quotient? d.minimize = some q) (hs : s < d.states.length) :
    q.nameOf (classOf d.minimize.classIndices s) = d.minimize.classNameOf (d.nameOf s) := by
  obtain ⟨-, rfl⟩ := quotient?_eq_some_iff.mp hq
  have hpart := isPartition_classIndices hd
  obtain ⟨P, hP, hsP⟩ := hpart.exists_getElem?_classOf (List.mem_range.mpr hs)
  -- the first class with a member of that name has the state itself as a member
  have hfind : ∃ P' ∈ d.minimize.classIndices, s ∈ P' ∧
      d.minimize.classes.find? (fun members => members.contains (d.nameOf s)) =
        some (P'.map d.nameOf) := by
    have hsome : (d.minimize.classes.find?
        fun members => members.contains (d.nameOf s)).isSome := by
      rw [List.find?_isSome]
      refine ⟨P.map d.minimize.nameOf, List.mem_map_of_mem (List.mem_of_getElem? hP), ?_⟩
      rw [nameOf_minimize hd, List.contains_iff_mem]
      exact List.mem_map_of_mem hsP
    obtain ⟨members, hmembers⟩ := Option.isSome_iff_exists.mp hsome
    obtain ⟨P', hP', rfl⟩ := List.mem_map.mp (List.mem_of_find?_eq_some hmembers)
    rw [nameOf_minimize hd] at hmembers
    have hmem : d.nameOf s ∈ P'.map d.nameOf := by
      have hcontains := List.find?_some hmembers
      exact List.contains_iff_mem.mp hcontains
    obtain ⟨r, hr, hrs⟩ := List.mem_map.mp hmem
    have hrlt := hpart.lt_of_mem hP' hr
    rw [nameOf_injOn hnames hrlt hs hrs] at hr
    exact ⟨P', hP', hr, hmembers⟩
  obtain ⟨P', hP', hsP', hfind⟩ := hfind
  obtain ⟨i, hi⟩ := List.mem_iff_getElem?.mp hP'
  have hsame : P' = P := by
    rw [hpart.classOf_eq hi hsP', hi] at hP
    exact Option.some.inj hP
  rw [Table.classNameOf, hfind, Option.getD_some, hsame, nameOf, names, List.map_map,
    List.getElem?_map, hP]
  rfl

/-! ## Names without braces and commas -/

/-- The name holds neither a brace nor a comma. -/
def IsPlain (name : String) : Prop := ∀ c ∈ name.toList, c ∉ ['\x7b', '\x7d', ',']

/-- The characters of the name of the first member, read off the name of a class. -/
def firstName (name : String) : List Char :=
  (name.toList.dropWhile (· = '\x7b')).takeWhile (· ≠ ',')

theorem firstName_className {a : String} {l : List String} (h : IsPlain a) :
    firstName (className (a :: l)) = a.toList := by
  have hcomma : ∀ c ∈ a.toList, decide (c ≠ ',') = true := by
    intro c hc
    have hplain := h c hc
    simp only [List.mem_cons, not_or] at hplain
    exact decide_eq_true hplain.2.2.1
  -- a brace is only the one in front of several names
  have hbrace : ∀ rest : List Char, rest.head? ≠ some '\x7b' →
      (a.toList ++ rest).dropWhile (· = '\x7b') = a.toList ++ rest := by
    intro rest hrest
    cases hl : a.toList with
    | nil => cases rest <;> simp_all
    | cons c cs =>
      have hplain := h c (by simp [hl])
      simp only [List.mem_cons, not_or] at hplain
      simp [hplain.1]
  cases l with
  | nil =>
    rw [firstName, className, ← List.append_nil a.toList, hbrace [] (by simp),
      List.takeWhile_append_of_pos hcomma]
    rfl
  | cons b l =>
    have hlist : (className (a :: b :: l)).toList =
        '\x7b' :: (a.toList ++ ',' :: ((",".intercalate (b :: l)).toList ++ ['\x7d'])) := by
      simp [className, String.intercalate_cons_cons]
    rw [firstName, hlist, List.dropWhile_cons, if_pos (by decide), hbrace _ (by simp),
      List.takeWhile_append_of_pos hcomma]
    simp

theorem eq_of_className_eq {a b : String} {l m : List String} (ha : IsPlain a) (hb : IsPlain b)
    (h : className (a :: l) = className (b :: m)) : a = b := by
  have hfirst := firstName_className (l := l) ha
  rw [h, firstName_className hb] at hfirst
  exact (String.toList_inj.mp hfirst).symm

theorem nodup_names_quotient (hd : d.IsComplete) (hnames : d.names.Nodup)
    (hq : d.quotient? d.minimize = some q) (hplain : ∀ name ∈ d.names, IsPlain name) :
    q.names.Nodup := by
  obtain ⟨-, rfl⟩ := quotient?_eq_some_iff.mp hq
  have hpart := isPartition_classIndices hd
  rw [names, List.map_map, List.nodup_iff_pairwise_ne, List.pairwise_map,
    List.pairwise_iff_getElem]
  intro i j hi hj hlt heq
  have hP := List.getElem?_eq_getElem hi
  have hQ := List.getElem?_eq_getElem hj
  obtain ⟨p, P, hpP⟩ := List.exists_cons_of_ne_nil (hpart.ne_nil _ (List.getElem_mem hi))
  obtain ⟨r, Q, hrQ⟩ := List.exists_cons_of_ne_nil (hpart.ne_nil _ (List.getElem_mem hj))
  have hp : p ∈ d.minimize.classIndices[i] := by rw [hpP]; exact List.mem_cons_self
  have hr : r ∈ d.minimize.classIndices[j] := by rw [hrQ]; exact List.mem_cons_self
  have hplt := hpart.lt_of_mem (List.getElem_mem hi) hp
  have hrlt := hpart.lt_of_mem (List.getElem_mem hj) hr
  have hclass : className (d.nameOf p :: P.map d.nameOf) =
      className (d.nameOf r :: Q.map d.nameOf) := by
    simpa [mergedState, hpP, hrQ] using heq
  -- one name means one first member, which is in one class only
  have hfirst := eq_of_className_eq (hplain _ (nameOf_mem hplt)) (hplain _ (nameOf_mem hrlt)) hclass
  obtain rfl := nameOf_injOn hnames hplt hrlt hfirst
  have hij : i = j := (hpart.classOf_eq hP hp).symm.trans (hpart.classOf_eq hQ hr)
  exact Nat.ne_of_lt hlt hij

end Dfa

end Acceptors
