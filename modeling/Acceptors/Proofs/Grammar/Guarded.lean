import Acceptors.Proofs.Grammar.Rows

/-!
# Guarded look-ups

Indexing a grammar looks names up, and parsing looks cells, symbols and names up. In the definitions
a look-up that fails has a default, as if it could not happen. Here each of them is guarded: it
yields a mishap if there is nothing at the place, and so does everything that uses it. The cells of a
row are filled from a chart that has the rows below it and no other. As the guarded functions yield
what the others do and no mishap, no look-up fails.

## Main definitions

* `Grammar.Mishap`: what a guarded look-up misses
* `Grammar.guardedIndex`: the productions by shape, one after the other
* `RuleIndex.guardedChart`, `RuleIndex.guardedBuild`, `RuleIndex.guardedParse`: parsing
* `RuleIndex.IsNumbered`: the names differ, and the rules use their numbers

## Main results

* `guardedIndex_eq`: indexing stops for a defect of the grammar and nothing else
* `guardedCell_chartUpTo`: a stretch of a span that is filled has a cell
* `guardedChartUpTo_eq`, `guardedBuild_eq`, `guardedRows_eq`, `guardedParse_eq`: no look-up of parsing
  fails
* `parsing_without_mishap`: all of it for every grammar and word
-/

namespace Acceptors

/-! ## Steps that all succeed -/

section

variable {ε α β : Type} {l : List α}

theorem gather_map_of_ok {f : α → Except ε β} {g : α → β} (h : ∀ a ∈ l, f a = .ok (g a)) :
    gather (l.map f) = .ok (l.map g) := by
  rw [gather_eq_ok_iff, List.map_map]
  exact List.map_congr_left h

theorem findM?_of_ok {f : α → Except ε Bool} {p : α → Bool} (h : ∀ a ∈ l, f a = .ok (p a)) :
    l.findM? f = .ok (l.find? p) := by
  induction l with
  | nil => rfl
  | cons a l ih =>
    have hrest := ih fun b hb => h b (List.mem_cons_of_mem a hb)
    rw [List.findM?, h a List.mem_cons_self, ok_bind, List.find?_cons]
    cases p a with
    | true => rfl
    | false => exact hrest

theorem findSomeM?_of_ok {f : α → Except ε (Option β)} {g : α → Option β}
    (h : ∀ a ∈ l, f a = .ok (g a)) : l.findSomeM? f = .ok (l.findSome? g) := by
  induction l with
  | nil => rfl
  | cons a l ih =>
    have hrest := ih fun b hb => h b (List.mem_cons_of_mem a hb)
    rw [List.findSomeM?, h a List.mem_cons_self, ok_bind, List.findSome?_cons]
    cases g a with
    | some b => rfl
    | none => exact hrest

end

namespace Grammar

/-- What a guarded look-up misses, or what else should not happen. -/
inductive Mishap where
  /-- The grammar has a defect. -/
  | defect (d : Defect)
  /-- A name has no number. -/
  | noNumber (name : String)
  /-- The body of a production has none of the shapes. -/
  | misshapen (p : Production)
  /-- There is no cell for the span at the start. -/
  | noCell (span start : Nat)
  /-- The word has no symbol at the place. -/
  | noSymbol (place : Nat)
  /-- A number has no name. -/
  | noName (number : Nat)
  /-- The bound on the height of a tree is reached. -/
  | tooHigh
  /-- There is no tree, although the start symbol stands in the top cell. -/
  | noTree
  deriving DecidableEq, Repr

/-- What was looked up, or a mishap if there is nothing. -/
def required {α : Type} (mishap : Mishap) : Option α → Except Mishap α
  | some a => .ok a
  | none => .error mishap

/-! ## Guarded indexing -/

section

variable (g : Grammar)

/-- The number of a name among the nonterminals. -/
def guardedNumber (name : String) : Except Mishap Nat :=
  if name ∈ g.nonterminals then .ok (g.numberOf name) else .error (.noNumber name)

/-- Files a production by its shape, behind those that are filed already. -/
def file (r : RuleIndex) (p : Production) : Except Mishap RuleIndex := do
  let head ← g.guardedNumber p.head
  match p.body with
  | [] => return { r with empty? := r.empty?.or (if head = 0 then some p else none) }
  | [.terminal c] => return { r with units := r.units ++ [⟨head, c, p⟩] }
  | [.nonterminal b, .nonterminal c] =>
    let left ← g.guardedNumber b
    let right ← g.guardedNumber c
    return { r with binaries := r.binaries ++ [⟨head, left, right, p⟩] }
  | _ => .error (.misshapen p)

/-- The productions by shape, if the grammar has no defect. -/
def guardedIndex : Except Mishap RuleIndex :=
  match g.check with
  | .error d => .error (.defect d)
  | .ok _ => g.productions.foldlM g.file ⟨g.nonterminals, [], [], none⟩

end

namespace RuleIndex

/-! ## Guarded parsing -/

/-- The cell of a span and a start, if it is filled. -/
def Chart.guardedCell (chart : Chart) (span start : Nat) : Except Mishap Cell :=
  if span = 0 then .error (.noCell span start)
  else required (.noCell span start) ((chart[span - 1]?).bind fun row => row[start]?)

section

variable (r : RuleIndex)

/-- The cell of a span and a start, from the rows below. -/
def guardedJoinedCell (chart : Chart) (span start : Nat) : Except Mishap Cell :=
  (gather ((List.range (span - 1)).map fun k => do
    let left ← chart.guardedCell (k + 1) start
    let right ← chart.guardedCell (span - (k + 1)) (start + (k + 1))
    return r.joinedHeads left right)).map fun heads => r.toCell heads.flatten

/-- The row of a span over a word of the given length. -/
def guardedRow (length : Nat) (chart : Chart) (span : Nat) : Except Mishap (Array Cell) :=
  (gather ((List.range (length + 1 - span)).map (r.guardedJoinedCell chart span))).map List.toArray

/-- The chart up to the given number of rows beyond the first. -/
def guardedChartUpTo (w : Word) : Nat → Except Mishap Chart
  | 0 => .ok #[r.firstRow w]
  | n + 1 => do
    let below ← guardedChartUpTo w n
    let row ← r.guardedRow w.length below (n + 2)
    return below.push row

/-- The chart of a word that is not empty. -/
def guardedChart (w : Word) : Except Mishap Chart := r.guardedChartUpTo w (w.length - 1)

/-- Whether a split of a stretch after `k` characters fits the body of a rule. The second part is
looked up only if the first one fits. -/
def guardedSplits (chart : Chart) (span start : Nat) (b : BinaryRule) (k : Nat) :
    Except Mishap Bool := do
  let left ← chart.guardedCell k start
  if left.contains b.left then
    let right ← chart.guardedCell (span - k) (start + k)
    return right.contains b.right
  else return false

/-- The first rule of a nonterminal that fits a stretch, with its earliest split. -/
def guardedSplit? (chart : Chart) (head span start : Nat) :
    Except Mishap (Option (BinaryRule × Nat)) :=
  (r.binaries.filter fun b => b.head = head).findSomeM? fun b => do
    let k? ← ((List.range (span - 1)).map (· + 1)).findM? (guardedSplits chart span start b)
    return k?.map fun k => (b, k)

/-- The name of a number. -/
def guardedName (number : Nat) : Except Mishap String :=
  required (.noName number) r.names[number]?

/-- The tree of a nonterminal over the stretch of `span` characters at `start`, with the
productions of its nodes in preorder; nothing if no rule fits. -/
def guardedBuild (chart : Chart) (w : Word) :
    Nat → (head span start : Nat) → Except Mishap (Option (Tree × List Production))
  | 0, _, _, _ => .error .tooHigh
  | height + 1, head, span, start =>
    if span = 1 then do
      let c ← required (.noSymbol start) w[start]?
      match r.units.find? fun u => u.head = head && u.terminal = c with
      | none => return none
      | some u =>
        let name ← r.guardedName head
        return some (.branch name [.leaf c], [u.production])
    else do
      match ← r.guardedSplit? chart head span start with
      | none => return none
      | some (b, k) =>
        match ← guardedBuild chart w height b.left k start with
        | none => return none
        | some (left, leftSteps) =>
          match ← guardedBuild chart w height b.right (span - k) (start + k) with
          | none => return none
          | some (right, rightSteps) =>
            let name ← r.guardedName head
            return some (.branch name [left, right], b.production :: leftSteps ++ rightSteps)

/-- The explanation of a word, if the grammar derives it. -/
def guardedParse (w : Word) : Except Mishap (Option Explanation) :=
  if w.isEmpty then return r.parseEmpty
  else do
    let chart ← r.guardedChart w
    let top ← chart.guardedCell w.length 0
    if top.contains 0 then
      match ← r.guardedBuild chart w w.length 0 w.length 0 with
      | none => .error .noTree
      | some (tree, steps) => return some ⟨tree, ⟨r.startName, steps⟩⟩
    else return none

/-- The names in the cells of all rows, as they are shown. -/
def guardedRows (w : Word) : Except Mishap (List (List (List String))) :=
  if w.isEmpty then return []
  else do
    let chart ← r.guardedChart w
    gather (chart.toList.map fun row => gather (row.toList.map fun cell =>
      gather (cell.map fun a => (r.guardedName a).map displayLabel)))

/-- The names differ, and the numbers in all rules are those of names. -/
structure IsNumbered (r : RuleIndex) : Prop where
  nodup_names : r.names.Nodup
  unit_lt : ∀ u ∈ r.units, u.head < r.names.length
  binary_lt : ∀ b ∈ r.binaries,
    b.head < r.names.length ∧ b.left < r.names.length ∧ b.right < r.names.length

end

section

variable {r : RuleIndex} {w : Word} {n span start : Nat}

/-! ## The chart is filled without a mishap -/

/-- A stretch of the word whose span is filled has a cell. -/
theorem guardedCell_chartUpTo (hpos : 1 ≤ span) (hspan : span ≤ n + 1)
    (hend : start + span ≤ w.length) :
    (r.chartUpTo w n).guardedCell span start = .ok ((r.chartUpTo w n).cell span start) := by
  obtain ⟨row, hrow, hsize⟩ := r.exists_row w (show span - 1 ≤ n by omega)
  have hstart : start < row.size := by omega
  rw [Chart.guardedCell, Chart.cell, if_neg (by omega), hrow, Option.bind_some,
    Array.getElem?_eq_getElem hstart]
  rfl

/-- The cells that a cell is joined from belong to rows below it. -/
theorem guardedJoinedCell_eq (hspan : span ≤ n + 2) (hend : start + span ≤ w.length) :
    r.guardedJoinedCell (r.chartUpTo w n) span start =
      .ok (r.joinedCell (r.chartUpTo w n) span start) := by
  rw [guardedJoinedCell, gather_map_of_ok (g := fun k =>
    r.joinedHeads ((r.chartUpTo w n).cell (k + 1) start)
      ((r.chartUpTo w n).cell (span - (k + 1)) (start + (k + 1))))]
  · rw [joinedCell, List.flatMap_def]
    rfl
  · intro k hk
    have hlt := List.mem_range.mp hk
    rw [guardedCell_chartUpTo (by omega) (by omega) (by omega),
      guardedCell_chartUpTo (by omega) (by omega) (by omega)]
    rfl

theorem guardedRow_eq (hspan : span ≤ n + 2) :
    r.guardedRow w.length (r.chartUpTo w n) span =
      .ok (r.joinedRow w.length (r.chartUpTo w n) span) := by
  rw [guardedRow, gather_map_of_ok (g := r.joinedCell (r.chartUpTo w n) span)]
  · rfl
  · intro start hstart
    have hlt := List.mem_range.mp hstart
    exact guardedJoinedCell_eq hspan (by omega)

theorem guardedChartUpTo_eq (r : RuleIndex) (w : Word) (n : Nat) :
    r.guardedChartUpTo w n = .ok (r.chartUpTo w n) := by
  induction n with
  | zero => rfl
  | succ n ih => rw [guardedChartUpTo, ih, ok_bind, guardedRow_eq (Nat.le_refl _)]; rfl

/-! ## Trees are built without a mishap -/

theorem guardedSplits_eq {b : BinaryRule} {k : Nat} (hpos : 1 ≤ k) (hk : k < span)
    (hspan : span ≤ n + 1) (hend : start + span ≤ w.length) :
    guardedSplits (r.chartUpTo w n) span start b k =
      .ok (splits (r.chartUpTo w n) span start b k) := by
  rw [guardedSplits, splits, guardedCell_chartUpTo hpos (by omega) (by omega), ok_bind]
  cases ((r.chartUpTo w n).cell k start).contains b.left with
  | false => rfl
  | true =>
    rw [if_pos rfl, guardedCell_chartUpTo (by omega) (by omega) (by omega)]
    rfl

theorem guardedSplit?_eq {head : Nat} (hspan : span ≤ n + 1) (hend : start + span ≤ w.length) :
    r.guardedSplit? (r.chartUpTo w n) head span start =
      .ok (r.split? (r.chartUpTo w n) head span start) := by
  refine findSomeM?_of_ok fun b _ => ?_
  rw [findM?_of_ok (p := splits (r.chartUpTo w n) span start b)]
  · rfl
  · intro k hk
    obtain ⟨hpos, hlt⟩ := mem_places_iff.mp hk
    exact guardedSplits_eq hpos hlt hspan hend

theorem guardedName_eq {a : Nat} (h : a < r.names.length) :
    r.guardedName a = .ok ((r.names[a]?).getD "") := by
  rw [guardedName, List.getElem?_eq_getElem h]
  rfl

/-- A tree is built over any stretch of the word, or none is found, without a mishap. The bound on
its height is reached by no stretch, as each part of a stretch is shorter. -/
theorem guardedBuild_eq (hr : r.IsNumbered) {head height : Nat} (hheight : span ≤ height)
    (hpos : 1 ≤ span) (hspan : span ≤ n + 1) (hend : start + span ≤ w.length) :
    r.guardedBuild (r.chartUpTo w n) w height head span start =
      .ok (r.build (r.chartUpTo w n) w height head span start) := by
  induction height generalizing head span start with
  | zero => omega
  | succ height ih =>
    rw [guardedBuild]
    by_cases hone : span = 1
    · subst hone
      rw [if_pos rfl, build_one, List.getElem?_eq_getElem (by omega : start < w.length), required,
        ok_bind, Option.bind_some]
      cases hu : r.units.find? _ with
      | none => rfl
      | some u =>
        obtain ⟨hhead, -⟩ : u.head = head ∧ _ := by simpa using List.find?_some hu
        have hname := hr.unit_lt u (List.mem_of_find?_eq_some hu)
        dsimp only
        rw [guardedName_eq (hhead ▸ hname)]
        rfl
    · rw [if_neg hone, guardedSplit?_eq hspan hend, ok_bind]
      cases hsplit : r.split? (r.chartUpTo w n) head span start with
      | none =>
        rw [build, if_neg hone, hsplit]
        rfl
      | some p =>
        obtain ⟨b, k⟩ := p
        obtain ⟨hb, hhead, hk, hlt, -⟩ := of_split?_eq_some hsplit
        have hname := (hr.binary_lt b hb).1
        -- both parts are shorter than the stretch, so their cells are filled and the height suffices
        dsimp only
        rw [build_of_split? hone hsplit, ih (by omega) hk (by omega) (by omega), ok_bind]
        cases r.build (r.chartUpTo w n) w height b.left k start with
        | none => rfl
        | some left =>
          dsimp only
          rw [ih (by omega) (by omega) (by omega) (by omega), ok_bind]
          cases r.build (r.chartUpTo w n) w height b.right (span - k) (start + k) with
          | none => rfl
          | some right =>
            dsimp only
            rw [guardedName_eq (hhead ▸ hname)]
            rfl

/-- Where the start symbol stands in the top cell, there is a tree. -/
theorem isSome_build_top (r : RuleIndex) (hw : w ≠ []) (h : 0 ∈ (r.chart w).cell w.length 0) :
    (r.build (r.chart w) w w.length 0 w.length 0).isSome := by
  have hlen : 0 < w.length := List.length_pos_iff.mpr hw
  exact isSome_build (Nat.le_refl _) hlen (by omega) (by omega) h

/-- Only numbers of names stand in a chart. -/
theorem guardedRows_eq (r : RuleIndex) (w : Word) : r.guardedRows w = .ok (r.rows w) := by
  unfold guardedRows rows
  split
  · rfl
  · rw [guardedChart, guardedChartUpTo_eq, ok_bind, ← chart]
    refine gather_map_of_ok fun row hrow => gather_map_of_ok fun cell hcell =>
      gather_map_of_ok fun a ha => ?_
    obtain ⟨heads, rfl⟩ :=
      r.exists_eq_toCell w (Array.mem_toList_iff.mp hrow) (Array.mem_toList_iff.mp hcell)
    rw [guardedName_eq (r.mem_toCell.mp ha).1]
    rfl

theorem guardedBuild_top (hr : r.IsNumbered) (hw : w ≠ []) :
    r.guardedBuild (r.chart w) w w.length 0 w.length 0 =
      .ok (r.build (r.chart w) w w.length 0 w.length 0) := by
  have hlen : 0 < w.length := List.length_pos_iff.mpr hw
  exact guardedBuild_eq hr (Nat.le_refl _) hlen (by omega) (by omega)

theorem guardedParse_eq (hr : r.IsNumbered) (w : Word) : r.guardedParse w = .ok (r.parse w) := by
  unfold guardedParse parse
  by_cases hw : w = []
  · rw [hw]
    rfl
  · have hlen : 0 < w.length := List.length_pos_iff.mpr hw
    have htop : (r.chart w).guardedCell w.length 0 = .ok ((r.chart w).cell w.length 0) :=
      guardedCell_chartUpTo hlen (by omega) (by omega)
    rw [if_neg (by simpa using hw), if_neg (by simpa using hw), guardedChart, guardedChartUpTo_eq,
      ok_bind, ← chart, htop, ok_bind]
    dsimp only
    by_cases hzero : ((r.chart w).cell w.length 0).contains 0 = true
    · obtain ⟨p, hp⟩ := Option.isSome_iff_exists.mp
        (isSome_build_top r hw (List.contains_iff_mem.mp hzero))
      rw [if_pos hzero, if_pos hzero, guardedBuild_top hr hw, ok_bind, hp]
      rfl
    · rw [if_neg hzero, if_neg hzero]
      rfl

end

end RuleIndex

/-! ## A grammar is indexed without a mishap -/

section

variable {g : Grammar}

theorem guardedNumber_eq {name : String} (h : name ∈ g.nonterminals) :
    g.guardedNumber name = .ok (g.numberOf name) := if_pos h

theorem numberOf_lt {name : String} (h : name ∈ g.nonterminals) :
    g.numberOf name < g.nonterminals.length := List.idxOf_lt_length_of_mem h

/-- Number zero is that of the start symbol and of no other. -/
theorem numberOf_eq_zero_iff {name : String} (h : name ∈ g.nonterminals) :
    g.numberOf name = 0 ↔ name = g.start := by
  have hzero : g.numberOf g.start = 0 := numberOf_eq_of_getElem? getElem?_nonterminals_zero
  constructor
  · exact fun hname => numberOf_inj h (hname.trans hzero.symm)
  · rintro rfl
    exact hzero

/-- A production with one of the shapes is filed under that shape. -/
theorem file_eq {p : Production} (hp : p ∈ g.productions) (hnormal : p.isNormal = true)
    (r : RuleIndex) :
    g.file r p = .ok {
      names := r.names
      units := r.units ++ (g.unitRule? p).toList
      binaries := r.binaries ++ (g.binaryRule? p).toList
      empty? := r.empty?.or (if p.body.isEmpty && p.head = g.start then some p else none) } := by
  have hhead := head_mem_nonterminals hp
  rw [file, guardedNumber_eq hhead, ok_bind]
  rcases Production.isNormal_iff.mp hnormal with hbody | ⟨c, hbody⟩ | ⟨b, c, hbody⟩
  · simp [hbody, unitRule?, binaryRule?, numberOf_eq_zero_iff hhead, pure, Except.pure]
  · simp [hbody, unitRule?, binaryRule?, pure, Except.pure]
  · have hb : b ∈ g.nonterminals := body_mem_nonterminals hp (by simp [hbody])
    have hc : c ∈ g.nonterminals := body_mem_nonterminals hp (by simp [hbody])
    simp [hbody, unitRule?, binaryRule?, guardedNumber_eq hb, guardedNumber_eq hc, pure,
      Except.pure, bind, Except.bind]

/-- Productions are filed behind one another, and the first empty body of the start symbol stays. -/
theorem foldlM_file_eq {l : List Production}
    (hl : ∀ p ∈ l, p ∈ g.productions ∧ p.isNormal = true) (r : RuleIndex) :
    l.foldlM g.file r = .ok {
      names := r.names
      units := r.units ++ l.filterMap g.unitRule?
      binaries := r.binaries ++ l.filterMap g.binaryRule?
      empty? := r.empty?.or (l.find? fun p => p.body.isEmpty && p.head = g.start) } := by
  induction l generalizing r with
  | nil => simp [pure, Except.pure]
  | cons p l ih =>
    obtain ⟨hp, hnormal⟩ := hl p List.mem_cons_self
    -- what a production adds to a list, or would be found as, is split off in front of the rest
    have hfiled : ∀ {γ : Type} (f : Production → Option γ),
        (p :: l).filterMap f = (f p).toList ++ l.filterMap f := by
      intro γ f
      rw [List.filterMap_cons]
      cases f p <;> rfl
    have hfound : ∀ q : Production → Bool,
        (p :: l).find? q = (if q p then some p else none).or (l.find? q) := by
      intro q
      rw [List.find?_cons]
      cases q p <;> rfl
    rw [List.foldlM_cons, file_eq hp hnormal, ok_bind,
      ih fun q hq => hl q (List.mem_cons_of_mem p hq)]
    simp only [hfiled, hfound, List.append_assoc, Option.or_assoc]

/-- Indexing stops for a defect of the grammar and for nothing else. -/
theorem guardedIndex_eq (g : Grammar) : g.guardedIndex = g.indexed.mapError Mishap.defect := by
  unfold guardedIndex indexed
  cases hcheck : g.check with
  | error d => rfl
  | ok u =>
    have hg := check_eq_ok_iff.mp hcheck
    dsimp only
    rw [foldlM_file_eq fun p hp => ⟨hp, hg.shape p hp⟩]
    rfl

theorem isNumbered_ruleIndex (g : Grammar) : g.ruleIndex.IsNumbered where
  nodup_names := g.nodup_nonterminals
  unit_lt u hu := by
    obtain ⟨p, hp, c, -, rfl⟩ := mem_units_iff.mp hu
    exact numberOf_lt (head_mem_nonterminals hp)
  binary_lt b hb := by
    obtain ⟨p, hp, l, r, hbody, rfl⟩ := mem_binaries_iff.mp hb
    exact ⟨numberOf_lt (head_mem_nonterminals hp),
      numberOf_lt (body_mem_nonterminals hp (by simp [hbody])),
      numberOf_lt (body_mem_nonterminals hp (by simp [hbody]))⟩

/-- **Parsing never misses anything.** Indexing a grammar yields the defect that its check finds, or
else the productions by shape: a name for each number, no name twice, the start symbol first, and
rules that use only numbers of names. With these, each cell that a word's chart is filled from is
there when it is read, and so is each cell, symbol and name that is read for a tree or shown in a
row. A tree is found whenever the start symbol stands in the top cell, and the word is explained as
without the guards. -/
theorem parsing_without_mishap (g : Grammar) :
    (∃ d, g.check = .error d ∧ g.guardedIndex = .error (.defect d)) ∨
    ∃ r, g.check = .ok () ∧ g.guardedIndex = .ok r ∧ g.indexed = .ok r ∧
      r.names = g.nonterminals ∧ r.names[0]? = some g.start ∧ r.IsNumbered ∧
      (∀ p ∈ g.productions, ∃ k < r.names.length, g.guardedNumber p.head = .ok k) ∧
      ∀ w, r.guardedParse w = .ok (r.parse w) ∧ r.guardedRows w = .ok (r.rows w) ∧ (w ≠ [] →
        r.guardedChart w = .ok (r.chart w) ∧
        (0 ∈ (r.chart w).cell w.length 0 → ∃ built,
          r.guardedBuild (r.chart w) w w.length 0 w.length 0 = .ok (some built) ∧
            r.build (r.chart w) w w.length 0 w.length 0 = some built)) := by
  rw [guardedIndex_eq, indexed]
  cases hcheck : g.check with
  | error d => exact .inl ⟨d, rfl, rfl⟩
  | ok u =>
    have hnumbered := isNumbered_ruleIndex g
    refine .inr ⟨g.ruleIndex, rfl, rfl, rfl, rfl, getElem?_nonterminals_zero, hnumbered,
      fun p hp => ?_, fun w => ⟨RuleIndex.guardedParse_eq hnumbered w,
        RuleIndex.guardedRows_eq g.ruleIndex w, fun hw => ⟨?_, fun htop => ?_⟩⟩⟩
    · have hhead := head_mem_nonterminals hp
      exact ⟨g.numberOf p.head, numberOf_lt hhead, guardedNumber_eq hhead⟩
    · exact RuleIndex.guardedChartUpTo_eq g.ruleIndex w (w.length - 1)
    · obtain ⟨built, hbuilt⟩ :=
        Option.isSome_iff_exists.mp (RuleIndex.isSome_build_top g.ruleIndex hw htop)
      exact ⟨built, by rw [RuleIndex.guardedBuild_top hnumbered hw, hbuilt], hbuilt⟩

/-- The tree of `aabb` is built with guarded look-ups. -/
theorem nested_without_mishap : ∃ r, nested.guardedIndex = .ok r ∧
    r.guardedChart ['a', 'a', 'b', 'b'] = .ok (r.chart ['a', 'a', 'b', 'b']) ∧
      ∃ built, r.guardedBuild (r.chart ['a', 'a', 'b', 'b']) ['a', 'a', 'b', 'b'] 4 0 4 0 =
        .ok (some built) := by
  rcases parsing_without_mishap nested with ⟨d, hd, -⟩ | ⟨r, -, hguarded, hr, -, -, -, -, hparse⟩
  · cases hd
  · obtain ⟨hchart, hbuild⟩ := (hparse ['a', 'a', 'b', 'b']).2.2 (by decide)
    have htop : 0 ∈ (nested.ruleIndex.chart ['a', 'a', 'b', 'b']).cell 4 0 := by decide +kernel
    obtain rfl : nested.ruleIndex = r := Except.ok.inj hr
    obtain ⟨built, hbuilt, -⟩ := hbuild htop
    exact ⟨_, hguarded, hchart, built, hbuilt⟩

end

end Grammar

end Acceptors
