import Acceptors.Proofs.Description.WrittenLines
import Acceptors.Proofs.Grammar.NormalForm

/-!
# Written grammars

A grammar in normal form can be written down if its nonterminals are names that have productions.
Terminals are quoted, so that none of them is taken for a nonterminal, a bar or a blank. Productions
of one head may share a line, with bars between their bodies. Read again, the text describes the
same grammar.

## Main definitions

* `IsWritableGrammar`: the grammars that can be written
* `EndsBody`: what may stand behind a body

## Main results

* `readsBack_alternative`, `readsBack_ruleLine`: bodies and rules are read back
* `classify_ofSymbol`, `productionsOf_eq_ok`: the symbols and productions that are meant
* `parse_ofGrammar`: writing a grammar and reading it leads back to it
-/

namespace Acceptors.Description

open Written (Line joined quoted)

/-! ## Symbols -/

/-- A symbol that can be written: a terminal that is no quote, or a nonterminal that is a name. -/
def IsWritableSymbol : GrammarSymbol → Prop
  | .terminal c => c ≠ '\''
  | .nonterminal name => IsIdent name

/-- What may stand behind a symbol of a body. -/
def EndsSymbol (u : List Char) : Prop := u ≠ [] → Token.stopsAt [' ', '\t', '|'] u = true

section

variable {x : GrammarSymbol} {u : List Char}

theorem EndsLine.endsSymbol (hu : EndsLine u) : EndsSymbol u := by
  rcases hu with rfl | ⟨v, rfl⟩
  · exact fun h => absurd rfl h
  · exact fun _ => rfl

theorem endsSymbol_blank (u : List Char) : EndsSymbol (' ' :: u) := fun _ => rfl

/-- A symbol is read back as it is written. -/
theorem bodySymbol_append (hx : IsWritableSymbol x) (hu : EndsSymbol u) :
    Token.bodySymbol (Written.ofSymbol x ++ u) = some (Written.ofSymbol x, u) := by
  rw [Token.bodySymbol_eq]
  cases x with
  | terminal c =>
    have hquoted : Token.quotedChar ('\'' :: c :: '\'' :: u) = some (c, u) := by
      rw [Token.quotedChar, if_pos ⟨rfl, rfl, hx⟩]
    rw [Written.ofSymbol, quoted, List.cons_append, List.cons_append, List.cons_append,
      List.nil_append, hquoted]
    rfl
  | nonterminal name =>
    obtain ⟨c, t, hlist, hc⟩ := hx.exists_cons
    have hcut : takeUntil (Token.stopsAt [' ', '\t', '|']) (name.toList ++ u) = (name.toList, u) :=
      Token.takeUntil_of_isIdentChar hx.2 (by decide) hu
    rw [Written.ofSymbol, Token.upTo_eq, hcut, if_neg hx.toList_ne_nil, hlist, List.cons_append,
      Token.quotedChar_of_isIdentChar hc]
    rfl

theorem skipLines_ofSymbol (hx : IsWritableSymbol x) (u : List Char) :
    skipLines (Written.ofSymbol x ++ u) = Written.ofSymbol x ++ u := by
  cases x with
  | terminal c => rfl
  | nonterminal name => exact hx.skipLines_append u

theorem readsBack_bodySymbol (hx : IsWritableSymbol x) :
    (Reader.located (.token .bodySymbol Token.bodySymbol)).ReadsBack Located.value EndsSymbol
      (Written.ofSymbol x) (Written.ofSymbol x) :=
  ⟨fun u _ => skipLines_ofSymbol hx u, fun _ hu =>
    (Reader.reads_of_read (bodySymbol_append hx hu)).located⟩

end

/-! ## Bodies -/

/-- What may stand behind a body: the end of its line, or a bar. -/
def EndsBody (u : List Char) : Prop := EndsLine u ∨ ∃ v, u = " | ".toList ++ v

section

variable {body : List GrammarSymbol} {u : List Char}

theorem EndsBody.endsSymbol (hu : EndsBody u) : EndsSymbol u := by
  rcases hu with hu | ⟨v, rfl⟩
  · exact hu.endsSymbol
  · exact endsSymbol_blank _

/-- No symbol stands behind a body. -/
theorem EndsBody.bodySymbol_eq_none (hu : EndsBody u) : Token.bodySymbol (skipBlanks u) = none := by
  rcases hu with (rfl | ⟨v, rfl⟩) | ⟨v, rfl⟩ <;> rfl

/-- A symbol is not taken for the sign of the empty body. -/
theorem read_emptyBody_ofSymbol {x : GrammarSymbol} (hx : IsWritableSymbol x) (u : List Char) :
    emptyBody.read (Written.ofSymbol x ++ u) = none := by
  have hlits : (Reader.lit "ε").read (Written.ofSymbol x ++ u) = none ∧
      (Reader.lit "\'\'").read (Written.ofSymbol x ++ u) = none := by
    cases x with
    | terminal c =>
      have hne : c ≠ '\'' := hx
      refine ⟨rfl, ?_⟩
      simp [Reader.lit, Written.ofSymbol, quoted, Ne.symm hne]
    | nonterminal name =>
      obtain ⟨c, t, hlist, hc⟩ := IsIdent.exists_cons hx
      rw [Written.ofSymbol, hlist]
      exact ⟨Reader.read_lit_of_ne rfl (Token.ne_of_isIdentChar hc (by decide)) _,
        Reader.read_lit_of_ne rfl (Token.ne_of_isIdentChar hc (by decide)) _⟩
  rw [emptyBody, Reader.read_map, Reader.read_phrase, Reader.read_orElse, hlits.1, hlits.2]
  rfl

/-- A body is read back symbol by symbol. -/
theorem readsBack_alternative (hbody : ∀ x ∈ body, IsWritableSymbol x) :
    alternative.ReadsBack (List.map Located.value) EndsBody (Written.ofBody body)
      (body.map Written.ofSymbol) := by
  cases body with
  | nil => exact ⟨fun _ _ => rfl, fun u _ => ⟨[], Reader.reads_of_read rfl, rfl⟩⟩
  | cons x body =>
    obtain ⟨hx, hbody⟩ := List.forall_mem_cons.mp hbody
    have htext : ∀ u, Written.ofBody (x :: body) ++ u =
        Written.ofSymbol x ++ ((body.flatMap fun y => ' ' :: Written.ofSymbol y) ++ u) := by
      intro u
      have hlist : Written.ofBody (x :: body) =
          [' '].intercalate (Written.ofSymbol x :: body.map Written.ofSymbol) := rfl
      rw [hlist, intercalate_cons, List.flatMap_map, List.append_assoc]
      rfl
    refine ⟨fun u _ => by rw [htext, skipLines_ofSymbol hx], fun u hu => ?_⟩
    have hshrinks : (Reader.located (.token .bodySymbol Token.bodySymbol)).Shrinks :=
      (Reader.Frames.token Token.frames_bodySymbol (.inl rfl)).shrinks.located
    have hread : ∀ y ∈ body, ∀ w, EndsSymbol w → ∃ b,
        (Reader.located (.token .bodySymbol Token.bodySymbol)).Reads
          (skipBlanks ((' ' :: Written.ofSymbol y) ++ w)) b w ∧ b.value = Written.ofSymbol y := by
      intro y hy w hw
      have hback := readsBack_bodySymbol (hbody y hy)
      rw [List.cons_append, skipBlanks_blank, hback.skipBlanks_eq hw]
      exact hback.exists_reads w hw
    have hstop : (Reader.located (.token .bodySymbol Token.bodySymbol)).read (skipBlanks u) =
        none := by
      rw [Reader.read_located, Reader.read_token, hu.bodySymbol_eq_none]
      rfl
    -- the first symbol is read by itself, and each of the others behind a blank
    obtain ⟨b, bs, hb, ⟨v, hv, hblanks⟩, hvalues⟩ := (readsBack_bodySymbol hx).exists_reads_rest
      hshrinks hread (fun _ _ w => endsSymbol_blank _) hu.endsSymbol hstop
    refine ⟨b :: bs, ⟨v, ?_, hblanks⟩, hvalues⟩
    rw [htext, alternative, Reader.read_phrase, Reader.read_orElse, read_emptyBody_ofSymbol hx,
      Option.none_or, Reader.many1, hb.read_skip_bind, Reader.read_bind, hv]
    rfl

end

/-! ## Rules -/

section

variable {head : String} {bodies : List (List GrammarSymbol)} {u : List Char}

/-- What a rule line says, without the places where it says it. -/
def spelled (line : String × List Alternative) : String × List (List (List Char)) :=
  (line.1, line.2.map fun alternative => alternative.map Located.value)

/-- A rule is read back body by body. -/
theorem readsBack_ruleLine (hhead : IsIdent head) (hne : bodies ≠ [])
    (hbodies : ∀ body ∈ bodies, ∀ x ∈ body, IsWritableSymbol x) :
    ruleLine.ReadsBack spelled EndsLine (Written.ofRule head bodies)
      (head, bodies.map fun body => body.map Written.ofSymbol) := by
  obtain ⟨body, bodies, rfl⟩ := List.exists_cons_of_ne_nil hne
  obtain ⟨hbody, hbodies⟩ := List.forall_mem_cons.mp hbodies
  have htext : ∀ u, Written.ofRule head (body :: bodies) ++ u =
      head.toList ++ (" -> ".toList ++ (Written.ofBody body ++
        ((bodies.flatMap fun b => " | ".toList ++ Written.ofBody b) ++ u))) := by
    intro u
    simp only [Written.ofRule, List.map_cons, intercalate_cons, List.flatMap_map, List.append_assoc]
  refine ⟨fun u _ => by rw [htext, hhead.skipLines_append], fun u hu => ?_⟩
  have hshrinks : alternative.Shrinks := (frames_alternative (.inl rfl)).shrinks
  have hread : ∀ b ∈ bodies, ∀ w, EndsBody w → ∃ x, (do Reader.lit "|"; .skip; alternative).Reads
      (skipBlanks ((" | ".toList ++ Written.ofBody b) ++ w)) x w ∧
        x.map Located.value = b.map Written.ofSymbol := by
    intro b hb w hw
    rw [List.append_assoc]
    exact (readsBack_alternative (hbodies b hb)).after_lit hw
  have hstop : (do Reader.lit "|"; .skip; alternative).read (skipBlanks u) = none := by
    rcases hu with rfl | ⟨v, rfl⟩ <;> rfl
  have hbar : ∀ b ∈ bodies, ∀ w, EndsBody ((" | ".toList ++ Written.ofBody b) ++ w) :=
    fun _ _ _ => .inr ⟨_, List.append_assoc _ _ _⟩
  -- the first body is read behind the arrow, and each of the others behind a bar
  have hfirst := readsBack_alternative hbody
  obtain ⟨x, xs, hx, ⟨v, hv, hblanks⟩, hvalues⟩ :=
    hfirst.exists_reads_rest (hshrinks.after_lit (by decide)) hread hbar (.inl hu) hstop
  refine ⟨(head, x :: xs), ⟨v, ?_, hblanks⟩, congrArg (Prod.mk head) hvalues⟩
  have hident : ∀ w, (Reader.token .ident Token.ident).read (head.toList ++ (" -> ".toList ++ w)) =
      some (head, " -> ".toList ++ w) :=
    fun w => Token.ident_append hhead (by simp; rfl)
  have harrow : ∀ w, skipBlanks (" -> ".toList ++ w) = "->".toList ++ ' ' :: w := fun _ => rfl
  rw [htext, ruleLine, Reader.read_phrase, (Reader.reads_of_read (hident _)).read_skip_bind, harrow,
    Reader.read_lit_skip_bind, skipBlanks_blank,
    hfirst.skipBlanks_eq (Reader.follows_flatMap hbar (.inl hu)), hx.read_skip_bind,
    Reader.read_bind, hv]
  rfl

end

/-! ## Productions -/

/-- Lists that are alike under two functions are alike under two others. -/
theorem map_eq_map_of {α β γ δ : Type} {f : α → γ} {g : β → γ} {f' : α → δ} {g' : β → δ}
    {as : List α} {bs : List β} (h : as.map f = bs.map g)
    (hmap : ∀ a, ∀ b ∈ bs, f a = g b → f' a = g' b) : as.map f' = bs.map g' := by
  induction bs generalizing as with
  | nil =>
    obtain rfl := List.map_eq_nil_iff.mp h
    rfl
  | cons b bs ih =>
    obtain ⟨a, as, rfl, hab, has⟩ := List.map_eq_cons_iff.mp h
    obtain ⟨hb, hbs⟩ := List.forall_mem_cons.mp fun b hb a => hmap a b hb
    rw [List.map_cons, List.map_cons, hb a hab, ih has fun a b hb => hbs b hb a]

/-- The productions of rules, in their order. -/
def productionsIn (rules : List (String × List (List GrammarSymbol))) : List Production :=
  rules.flatMap fun r => r.2.map (Production.mk r.1)

section

variable {heads : List String} {rules : List (String × List (List GrammarSymbol))}

/-- A symbol that is read stands for the symbol that was written, if the nonterminals are heads. -/
theorem classify_ofSymbol {x : GrammarSymbol} {y : Located (List Char)} (hx : IsWritableSymbol x)
    (hheads : ∀ name, x = .nonterminal name → name ∈ heads) (hy : y.value = Written.ofSymbol x) :
    classify heads y = .ok x := by
  cases x with
  | terminal c => rw [classify, hy]; rfl
  | nonterminal name =>
    have hmem : heads.contains (String.ofList name.toList) = true := by
      rw [String.ofList_toList]
      exact List.contains_iff_mem.mpr (hheads name rfl)
    unfold classify
    rw [hy, Written.ofSymbol]
    split
    · next c hquoted =>
      -- no name starts with a quote
      have hquote := hx.2 '\'' (hquoted ▸ List.mem_cons_self)
      cases hquote
    · rw [if_pos hmem, String.ofList_toList]

/-- The productions that were written are those that are read. -/
theorem productionsOf_eq_ok {lines : List (String × List Alternative)}
    (h : lines.map spelled =
      rules.map fun r => (r.1, r.2.map fun body => body.map Written.ofSymbol))
    (hsymbols : ∀ r ∈ rules, ∀ body ∈ r.2, ∀ x ∈ body, IsWritableSymbol x ∧
      ∀ name, x = .nonterminal name → name ∈ rules.map Prod.fst) :
    productionsOf lines = .ok (productionsIn rules) := by
  -- the symbols of a body are told apart by the heads of all lines
  have hheads : lines.map Prod.fst = rules.map Prod.fst :=
    map_eq_map_of h fun _ _ _ hline => (Prod.mk.inj hline).1
  have hbody : ∀ r ∈ rules, ∀ body ∈ r.2, ∀ alternative : Alternative,
      alternative.map Located.value = body.map Written.ofSymbol →
        gather (alternative.map (classify (lines.map Prod.fst))) = .ok body := by
    intro r hr body hmem alternative hvalues
    refine gather_eq_ok_iff.mpr (map_eq_map_of hvalues fun y x hx hy => ?_)
    obtain ⟨hwritable, hname⟩ := hsymbols r hr body hmem x hx
    exact classify_ofSymbol hwritable (hheads ▸ hname) hy
  refine gather_eq_ok_iff.mpr ?_
  rw [productionsIn, List.map_flatMap, List.flatMap_def, List.flatMap_def]
  refine congrArg List.flatten (map_eq_map_of h fun line r hr hline => ?_)
  obtain ⟨hhead, halternatives⟩ := Prod.mk.inj hline
  rw [List.map_map]
  refine map_eq_map_of halternatives fun alternative body hmem hvalues => ?_
  rw [hbody r hr body hmem alternative hvalues, hhead]
  rfl

end

/-! ## Sections -/

section

variable {n : Line} {start : String} {rules : List (String × List (List GrammarSymbol))}

theorem readsBack_startSymbol (hstart : IsIdent start) :
    (sectionReader .grammar).ReadsBack id EndsLine (Written.field "start" start.toList)
      (.start start) := by
  refine readsBack_field [nameSection] rfl (fun u => ?_) (fun _ => rfl)
    (Reader.readsBack_ident hstart)
  simp only [List.forall_mem_cons]
  exact ⟨rfl, nofun⟩

/-- The lines of rules that can be written: their heads are names, and each has a body. -/
structure AreWritable (rules : List (String × List (List GrammarSymbol))) : Prop where
  head : ∀ r ∈ rules, IsIdent r.1
  bodies : ∀ r ∈ rules, r.2 ≠ []
  symbol : ∀ r ∈ rules, ∀ body ∈ r.2, ∀ x ∈ body, IsWritableSymbol x ∧
    ∀ name, x = .nonterminal name → name ∈ rules.map Prod.fst

theorem reads_productionsSection (hrules : AreWritable rules) :
    (sectionReader .grammar).Reads (Written.heading "rules" ++
        lined (rules.map fun r => Written.ofRule r.1 r.2))
      (.productions (.ok (productionsIn rules))) [] := by
  have hshrinks : ruleLine.Shrinks := (frames_ruleLine (.inl rfl)).shrinks
  obtain ⟨lines, ⟨v, hread, hv⟩, hvalues⟩ := exists_reads_lined (u := []) hshrinks
    (fun r hr => readsBack_ruleLine (hrules.head r hr) (hrules.bodies r hr)
      fun body hbody x hx => (hrules.symbol r hr body hbody x hx).1)
    (.inl rfl) (read_newlines_nil ruleLine)
  rw [List.append_nil] at hread
  refine ⟨v, ?_, hv⟩
  refine read_of_before [nameSection, startSection] rfl ?_ ?_
  · simp only [List.forall_mem_cons]
    exact ⟨rfl, rfl, nofun⟩
  · rw [rulesSection, productionsSection, Reader.read_map, read_sectionOf_heading, hread,
      Option.map_some]
    dsimp only
    rw [productionsOf_eq_ok hvalues hrules.symbol]

/-! ## What the sections describe -/

/-- The sections of a written grammar describe it. -/
theorem grammarOf_written {l : List (Located Section)} {g : Grammar} (hn : IsName n)
    (hcheck : g.check = .ok ())
    (hl : l.map Located.value = [.name n, .start g.start, .productions (.ok g.productions)]) :
    grammarOf l = .ok (String.ofList n, g) ∧ givenChecks l = [] := by
  have hfound : ∀ {α : Type} (view : Section → Option α), found? l view = _ :=
    found?_eq_findSome? hl
  have hstart : startSymbol l g.productions = .ok g.start := by
    unfold startSymbol
    rw [hfound]
    rfl
  refine ⟨?_, by rw [givenChecks, hfound]; rfl⟩
  refine bind_eq_ok_iff.mpr ⟨_, givenName_eq_ok hn (hfound _), ?_⟩
  refine bind_eq_ok_iff.mpr ⟨_, required_eq_ok_iff.mpr (hfound _), ?_⟩
  refine bind_eq_ok_iff.mpr ⟨g.productions, rfl, ?_⟩
  refine bind_eq_ok_iff.mpr ⟨g.start, hstart, ?_⟩
  exact bind_eq_ok_iff.mpr ⟨(), mapError_eq_ok_iff.mpr hcheck, rfl⟩

/-! ## The ends of the text -/

theorem endsVisibly_intercalate {lines : List Line} (hne : lines ≠ [])
    (h : ∀ q ∈ lines, EndsVisibly q) (sep : Line) : EndsVisibly (sep.intercalate lines) := by
  obtain ⟨q, lines, rfl⟩ := List.exists_cons_of_ne_nil hne
  induction lines generalizing q with
  | nil => simpa [intercalate_cons] using h
  | cons q' lines ih =>
    have htail := ih q' (List.cons_ne_nil q' lines) (List.forall_mem_cons.mp h).2
    rw [intercalate_cons] at htail
    rw [intercalate_cons, List.flatMap_cons, List.append_assoc]
    exact (htail.append sep).append q

theorem endsVisibly_ofBody {body : List GrammarSymbol} (h : ∀ x ∈ body, IsWritableSymbol x) :
    EndsVisibly (Written.ofBody body) := by
  cases body with
  | nil => exact ⟨'ε', rfl, rfl⟩
  | cons x body =>
    refine endsVisibly_intercalate (List.cons_ne_nil _ _) (fun q hq => ?_) [' ']
    obtain ⟨y, hy, rfl⟩ := (List.mem_map (f := Written.ofSymbol) (l := x :: body)).mp hq
    cases y with
    | terminal c => exact ⟨'\'', rfl, rfl⟩
    | nonterminal name => exact endsVisibly_ident (h _ hy)

theorem endsVisibly_ofRule (hrules : AreWritable rules) :
    ∀ q ∈ rules.map (fun r => Written.ofRule r.1 r.2), EndsVisibly q := by
  intro q hq
  obtain ⟨r, hr, rfl⟩ := List.mem_map.mp hq
  have hne : r.2.map Written.ofBody ≠ [] := by simpa using hrules.bodies r hr
  refine (endsVisibly_intercalate hne (fun q hq => ?_) _).append _
  obtain ⟨body, hbody, rfl⟩ := List.mem_map.mp hq
  exact endsVisibly_ofBody fun x hx => (hrules.symbol r hr body hbody x hx).1

end

/-! ## Texts -/

section

variable {n tail : Line} {g : Grammar} {rules : List (String × List (List GrammarSymbol))}

/-- Rules that can be written are read back as the grammar with their productions. -/
theorem parse_ofRules (hcheck : g.check = .ok ()) (hstart : IsIdent g.start)
    (hrules : AreWritable rules) (hproductions : productionsIn rules = g.productions)
    (hn : IsName n) (htail : ∀ c ∈ tail, Text.isBlank c = true) :
    parse .grammar (joined (Written.ofRules n g.start rules) ++ tail) =
      .ok { name := String.ofList n, checks := [], automaton := .grammar g } := by
  have hfront : List.Forall₂ ((sectionReader .grammar).ReadsBack id EndsLine) _ _ :=
    .cons (readsBack_name .grammar hn) <| .cons (readsBack_startSymbol hstart) .nil
  obtain ⟨l, u, hread, hvalues⟩ := exists_read_written hfront (fun _ => rfl)
    (reads_productionsSection hrules) (endsVisibly_ofRule hrules) htail
  rw [hproductions] at hvalues
  obtain ⟨hgrammar, hchecks⟩ := grammarOf_written hn hcheck hvalues
  refine parse_eq_ok_iff.mpr ⟨l, u, hread, ?_, ?_⟩
  · rw [keywords_eq_map hvalues]
    exact of_decide_eq_true rfl
  · rw [assembled, hgrammar, hchecks]
    rfl

/-- A grammar that can be written: its start symbol and its heads are names, each nonterminal of a
body is a head, and no terminal is a quote. -/
structure IsWritableGrammar (g : Grammar) : Prop where
  start : IsIdent g.start
  head : ∀ p ∈ g.productions, IsIdent p.head
  nonterminal : ∀ p ∈ g.productions, ∀ name, .nonterminal name ∈ p.body →
    ∃ q ∈ g.productions, q.head = name
  terminal : ∀ p ∈ g.productions, ∀ c, .terminal c ∈ p.body → c ≠ '\''

/-- However the productions are put on lines, the lines can be written. -/
theorem IsWritableGrammar.areWritable (hg : IsWritableGrammar g)
    (hbodies : ∀ r ∈ rules, r.2 ≠ []) (hproductions : productionsIn rules = g.productions) :
    AreWritable rules := by
  have hmem : ∀ r ∈ rules, ∀ body ∈ r.2, ⟨r.1, body⟩ ∈ g.productions := by
    intro r hr body hbody
    rw [← hproductions]
    exact List.mem_flatMap.mpr ⟨r, hr, List.mem_map_of_mem hbody⟩
  have hhead : ∀ r ∈ rules, IsIdent r.1 := by
    intro r hr
    obtain ⟨body, hbody⟩ := List.exists_mem_of_ne_nil _ (hbodies r hr)
    exact hg.head _ (hmem r hr body hbody)
  refine ⟨hhead, hbodies, fun r hr body hbody x hx => ?_⟩
  have hp := hmem r hr body hbody
  cases x with
  | terminal c => exact ⟨hg.terminal _ hp c hx, nofun⟩
  | nonterminal name =>
    obtain ⟨q, hq, rfl⟩ := hg.nonterminal _ hp name hx
    have hrule : ∃ r ∈ rules, r.1 = q.head := by
      rw [← hproductions] at hq
      obtain ⟨r, hr, hq⟩ := List.mem_flatMap.mp hq
      obtain ⟨_, _, rfl⟩ := List.mem_map.mp hq
      exact ⟨r, hr, rfl⟩
    obtain ⟨r, hr, hname⟩ := hrule
    refine ⟨hg.head q hq, fun name hname' => ?_⟩
    obtain rfl := GrammarSymbol.nonterminal.inj hname'
    exact List.mem_map.mpr ⟨r, hr, hname⟩

end

/-- **Every grammar in normal form can be written and is read back.** The lines that state its start
symbol and its productions, one a line, describe the grammar again, whatever white space follows;
and so do lines on which productions of one head share the head, with bars between their bodies. -/
theorem parse_ofGrammar {n tail : List Char} {g : Grammar} (hcheck : g.check = .ok ())
    (hg : IsWritableGrammar g) (hn : IsName n) (htail : ∀ c ∈ tail, Text.isBlank c = true) :
    parse .grammar (joined (Written.ofGrammar n g) ++ tail) =
        .ok { name := String.ofList n, checks := [], automaton := .grammar g } ∧
      ∀ rules : List (String × List (List GrammarSymbol)), (∀ r ∈ rules, r.2 ≠ []) →
        productionsIn rules = g.productions →
          parse .grammar (joined (Written.ofRules n g.start rules) ++ tail) =
            .ok { name := String.ofList n, checks := [], automaton := .grammar g } := by
  have hlines : ∀ rules : List (String × List (List GrammarSymbol)), (∀ r ∈ rules, r.2 ≠ []) →
      productionsIn rules = g.productions →
        parse .grammar (joined (Written.ofRules n g.start rules) ++ tail) =
          .ok { name := String.ofList n, checks := [], automaton := .grammar g } :=
    fun rules hbodies hproductions => parse_ofRules hcheck hg.start
      (hg.areWritable hbodies hproductions) hproductions hn htail
  refine ⟨hlines _ (fun r hr => ?_) ?_, hlines⟩
  · obtain ⟨p, -, rfl⟩ := List.mem_map.mp hr
    exact List.cons_ne_nil _ _
  · -- each production stands on a line of its own
    rw [productionsIn, List.flatMap_map]
    simp

/-- Rules with a bar, a slash and a line feed as terminals, and with a terminal that is also the
name of a nonterminal. -/
def barRules : List (String × List (List GrammarSymbol)) := [
  ("S", [[], [.terminal 'S'], [.nonterminal "A", .nonterminal "B"]]),
  ("A", [[.terminal '|']]),
  ("B", [[.terminal '/'], [.terminal '\n']])]

/-- Production by production and rule by rule the same grammar is written. -/
theorem bars_read_back :
    parse .grammar (joined (Written.ofGrammar ['G'] ⟨"S", productionsIn barRules⟩) ++ [' ']) =
        .ok ⟨"G", [], .grammar ⟨"S", productionsIn barRules⟩⟩ ∧
      parse .grammar (joined (Written.ofRules ['G'] "S" barRules) ++ [' ']) =
        .ok ⟨"G", [], .grammar ⟨"S", productionsIn barRules⟩⟩ := by
  have hname : IsName ['G'] := ⟨by decide, rfl, by simp [isNewline], by decide⟩
  have hblank : ∀ c ∈ [' '], Text.isBlank c = true := by
    rw [List.forall_mem_singleton]
    rfl
  have hwritable : IsWritableGrammar ⟨"S", productionsIn barRules⟩ := by
    refine ⟨by decide, ?_, ?_, ?_⟩
    · simp only [productionsIn, barRules, List.flatMap_cons, List.flatMap_nil, List.map_cons,
        List.map_nil, List.cons_append, List.nil_append, List.append_nil, List.forall_mem_cons]
      exact ⟨by decide, by decide, by decide, by decide, by decide, by decide, by simp⟩
    · simp [productionsIn, barRules]
    · simp [productionsIn, barRules]
  have hbodies : ∀ r ∈ barRules, r.2 ≠ [] := by simp [barRules]
  obtain ⟨hgrammar, hrules⟩ := parse_ofGrammar rfl hwritable hname hblank
  exact ⟨hgrammar, hrules barRules hbodies rfl⟩

end Acceptors.Description
