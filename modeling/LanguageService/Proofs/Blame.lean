import LanguageService.Proofs.CompletingGrammar
import LanguageService.Proofs.FileReports

namespace LanguageService

namespace Surface

open Surface.Parser

theorem finished_leads (c : Cursor) (r : Refusal) : Refusal.Leads c r (finished c r).2 := by
  rw [finished]
  split
  · exact .refl c r
  · next t rest hrest =>
      have hstop : c.stop = c.pos + (rest.length + 1) := by rw [Cursor.stop, hrest]; rfl
      refine .offer ⟨?_, ?_, fun h => ?_⟩ <;> simp only at * <;> omega

theorem parse_eq (ts : List Token) : parse ts =
    match many (terminated decl) ⟨ts, 0⟩ .start with
    | (some (ds, c), r) => if c.rest = [] then .ok ds else .error (finished c r).2.span
    | (none, r) => .error r.span := by
  rw [parse, file, bind_apply]
  cases many (terminated decl) ⟨ts, 0⟩ .start with
  | mk o r =>
      cases o with
      | none => rfl
      | some x =>
          obtain ⟨ds, ⟨rest, pos⟩⟩ := x
          cases rest <;> rfl

theorem parse_append (ts post : List Token) : parse (ts ++ post) =
    match many (terminated decl) (Cursor.before ⟨ts, 0⟩ post) .start with
    | (some (ds, c), r) => if c.rest = [] then .ok ds else .error (finished c r).2.span
    | (none, r) => .error r.span := parse_eq (ts ++ post)

theorem decls_guided (ts : List Token) :
    Guided (ts.length + 1) (Refuses decl) (many (terminated decl)) := decls_viable.toGuided

theorem parse_blames {ts : List Token} {s : Span} (h : parse ts = .error s) :
    ∃ r : Refusal, r.span = s ∧ r.Blames ts.length ∧
      (Orderly ts → (many (terminated decl) ⟨ts, 0⟩ .start).2.pos ≤ r.pos) := by
  have hlt : (⟨ts, 0⟩ : Cursor).rest.length < ts.length + 1 := Nat.lt_succ_self _
  have hstop : (⟨ts, 0⟩ : Cursor).stop = ts.length := Nat.zero_add _
  have hmany := ((decls_guided ts).leads ⟨ts, 0⟩ .start hlt).blames (Refusal.blames_start _)
  rw [hstop] at hmany
  rw [parse_eq] at h
  split at h
  · next ds c r hds =>
      rw [hds] at hmany ⊢
      have hreach := (decls_guided ts).reaches _ _ ds c r hlt hds
      obtain ⟨hpos, hblames⟩ := finished_leads c r
      rw [hreach.stop_eq, hstop] at hblames
      split at h <;> cases h
      exact ⟨_, rfl, hblames hmany, fun horderly => hpos (hreach.orderly horderly)⟩
  · next r hnone =>
      rw [hnone] at hmany ⊢
      cases h
      exact ⟨r, rfl, hmany, fun _ => Nat.le_refl _⟩

theorem settled_of_parse {ts : List Token} {ds : List Decl} (h : parse ts = .ok ds) :
    Settled ts := by
  rw [parse_eq] at h
  split at h
  · next ds c r hds =>
      obtain ⟨us, hrest, -, hus⟩ :=
        (decls_guided ts).reaches _ _ ds c r (Nat.lt_succ_self ts.length) hds
      split at h
      · next hnil =>
          rw [hnil, List.append_nil] at hrest
          exact (show ts = us from hrest) ▸ hus
      · cases h
  · cases h

theorem parse_nil : parse [] = .ok [] := by
  rw [parse_eq]
  rfl

theorem finished_blames {c : Cursor} {n : Nat} (hlt : c.pos < n) (r : Refusal) :
    (finished c r).2 = r ∨ (finished c r).2.span.start < n := by
  rw [finished]
  split
  · exact .inl rfl
  · exact r.offer_blames hlt

def AtFault (ts : List Token) : Prop :=
  ∀ post, ∃ s, parse (ts ++ post) = .error s ∧ s.start < ts.length

theorem accepted_or_at_fault {ts : List Token} (hne : ts ≠ [])
    (h : Stays (many (terminated decl)) ⟨ts, 0⟩) : (∃ ds, parse ts = .ok ds) ∨ AtFault ts := by
  obtain ⟨o, ho⟩ := h
  obtain ⟨r₀, hnow, -⟩ := ho.now .start
  have hstop : (⟨ts, 0⟩ : Cursor).stop = ts.length := Nat.zero_add _
  have hearlier {r : Refusal} (h : r = .start ∨ r.span.start < (⟨ts, 0⟩ : Cursor).stop) :
      r.span.start < ts.length := by
    rcases h with rfl | h
    · exact List.length_pos_iff.mpr hne
    · rwa [hstop] at h
  cases o with
  | none =>
      refine .inr fun post => ?_
      obtain ⟨r, hr, hblame⟩ := ho post .start
      exact ⟨r.span, by rw [parse_append, hr]; rfl, hearlier hblame⟩
  | some x =>
      obtain ⟨ds, c⟩ := x
      obtain ⟨us, hrest, hpos, -⟩ :=
        (decls_guided ts).reaches _ _ ds c r₀ (Nat.lt_succ_self ts.length) hnow
      by_cases hleft : c.rest = []
      · refine .inl ⟨ds, ?_⟩
        rw [parse_eq, hnow]
        exact if_pos hleft
      · refine .inr fun post => ?_
        obtain ⟨r, hr, hblame⟩ := ho post .start
        have hleft' : (c.before post).rest ≠ [] := fun h => hleft (List.append_eq_nil_iff.mp h).1
        have hlt : (c.before post).pos < ts.length := by
          have hlength : ts.length = us.length + c.rest.length := by
            rw [show ts = us ++ c.rest from hrest, List.length_append]
          have hmore := List.length_pos_iff.mpr hleft
          have hpos' : (c.before post).pos = us.length := hpos.trans (Nat.zero_add _)
          omega
        refine ⟨_, by rw [parse_append, hr]; exact if_neg hleft', ?_⟩
        rcases finished_blames hlt r with h | h
        · rw [h]
          exact hearlier hblame
        · exact h

theorem completes_or_at_fault (ts : List Token) :
    ((∃ more ds, parse (ts ++ more) = .ok ds) ∧ ∀ s, Orderly ts → parse ts = .error s →
      s = ⟨ts.length, ts.length⟩ ∨ s.start + 1 = ts.length ∧ s.stop = ts.length) ∨ AtFault ts := by
  have haccepted {ds : List Decl} (h : parse ts = .ok ds) :
      (∃ more ds, parse (ts ++ more) = .ok ds) ∧ ∀ s, Orderly ts → parse ts = .error s →
        s = ⟨ts.length, ts.length⟩ ∨ s.start + 1 = ts.length ∧ s.stop = ts.length :=
    ⟨⟨[], ds, by rw [List.append_nil, h]⟩, fun s _ hs => by rw [h] at hs; cases hs⟩
  by_cases hnil : ts = []
  · exact .inl (haccepted (hnil ▸ parse_nil))
  rcases (decls_guided ts).steady ⟨ts, 0⟩ (Nat.lt_succ_self _) with hstays | ⟨more, hreads, hlooks⟩
  · exact (accepted_or_at_fault hnil hstays).imp_left fun ⟨_, h⟩ => haccepted h
  · refine .inl ⟨⟨more, ?_⟩, fun s horderly h => ?_⟩
    · obtain ⟨ds, r', hr⟩ := hreads [] (decl_refuses (by simp)) .start
      rw [List.append_nil] at hr
      exact ⟨ds, by rw [parse_append, hr]; rfl⟩
    · obtain ⟨r, rfl, hblames, hpos⟩ := parse_blames h
      have hlooked := hlooks .start horderly
      rw [show (⟨ts, 0⟩ : Cursor).stop = ts.length from Nat.zero_add _] at hlooked
      exact hblames.last (Nat.le_antisymm hblames.pos_le (Nat.le_trans hlooked (hpos horderly)))

theorem take_completes {ts : List Token} {s : Span} (h : parse ts = .error s) :
    s.start ≤ ts.length ∧ ∃ more ds, parse (ts.take s.start ++ more) = .ok ds := by
  obtain ⟨r, rfl, hblames, -⟩ := parse_blames h
  refine ⟨hblames.start_le, ?_⟩
  rcases completes_or_at_fault (ts.take r.span.start) with ⟨hcompletes, -⟩ | hfault
  · exact hcompletes
  · obtain ⟨s, hs, hlt⟩ := hfault (ts.drop r.span.start)
    rw [List.take_append_drop, h] at hs
    cases hs
    have hle := List.length_take_le r.span.start ts
    omega

theorem incomplete_blames {ts post : List Token} {ds : List Decl} {s : Span}
    (hpost : parse (ts ++ post) = .ok ds) (h : parse ts = .error s) :
    s = ⟨ts.length, ts.length⟩ ∨ s.start + 1 = ts.length ∧ s.stop = ts.length := by
  rcases completes_or_at_fault ts with ⟨-, hblame⟩ | hfault
  · exact hblame s (settled_of_parse hpost).orderly.left h
  · obtain ⟨s, hs, -⟩ := hfault post
    rw [hpost] at hs
    cases hs

end Surface

namespace Layout

variable {l : Layout} {s : Surface.Span}

theorem syntaxError_of_lt (hclean : ∀ t ∈ l.tokens, t.isError = false)
    (hs : s.start < l.lexemes.size) : l.syntaxError s =
      [ParseError.diagnostic (.unexpected l.lexemes[s.start].token.display) (l.site s)] := by
  have hgood : l.lexemes[s.start].token.isError = false :=
    hclean _ (List.mem_map_of_mem (Array.getElem_mem_toList hs))
  rw [syntaxError, Array.getElem?_eq_getElem hs]
  simp [hgood]

theorem syntaxError_of_eq (hs : s.start = l.lexemes.size) :
    l.syntaxError s = [ParseError.diagnostic .endOfInput (l.site s)] := by
  rw [syntaxError, Array.getElem?_eq_none (Nat.le_of_eq hs.symm)]

/-- The blame is never too late: what comes before it is the beginning of a file. The end of the
tokens is blamed just if all of them are. -/
theorem blame_not_late (hclean : ∀ t ∈ l.tokens, t.isError = false)
    (h : Surface.parse l.tokens = .error s) :
    s.start ≤ l.tokens.length ∧
      (∃ d, l.syntaxError s = [d] ∧ d.site = l.site s ∧
        d.code = if s.start = l.tokens.length then "P0002" else "P0001") ∧
      ∃ more ds, Surface.parse (l.tokens.take s.start ++ more) = .ok ds := by
  obtain ⟨hle, hcompletes⟩ := Surface.take_completes h
  refine ⟨hle, ?_, hcompletes⟩
  rw [length_tokens] at hle ⊢
  split
  · next heq => exact ⟨_, syntaxError_of_eq heq, rfl, rfl⟩
  · next hne => exact ⟨_, syntaxError_of_lt hclean (Nat.lt_of_le_of_ne hle hne), rfl, rfl⟩

def bracelessDocument : File :=
  .document "file:///main.orca" "fun f() \x7b let \x7b return g(n: 1) \x7d inout x \x7d"

theorem bracelessDocument_completes : ∃ s more ds,
    Surface.parse (ofFile bracelessDocument).tokens = .error s ∧ s.start = 16 ∧
      Surface.parse ((ofFile bracelessDocument).tokens.take s.start ++ more) = .ok ds := by
  have hrun : (match Surface.parse (ofFile bracelessDocument).tokens with
      | .error s => decide (s.start = 16)
      | .ok _ => false) = true := by
    rw [ofFile_of_text bracelessDocument rfl]
    decide +kernel
  have hclean : ∀ t ∈ (ofFile bracelessDocument).tokens, t.isError = false := by
    rw [ofFile_of_text bracelessDocument rfl]
    decide +kernel
  cases hparse : Surface.parse (ofFile bracelessDocument).tokens with
  | ok ds => simp [hparse] at hrun
  | error s =>
      obtain ⟨-, -, more, ds, hcompletes⟩ := blame_not_late hclean hparse
      exact ⟨s, more, ds, rfl, by simpa [hparse] using hrun, hcompletes⟩

theorem site_end (l : Layout) :
    l.site ⟨l.tokens.length, l.tokens.length⟩ = ⟨l.file, l.stop, l.stop⟩ := by
  simp [site, byteSpan, length_tokens]

theorem site_last (hl : l.Ordered) (hstart : s.start + 1 = l.tokens.length)
    (hstop : s.stop = l.tokens.length) : ∃ x, l.lexemes.back? = some x ∧
      l.site s = ⟨l.file, x.start, x.stop⟩ ∧ l.lexemes[s.start]? = some x := by
  obtain ⟨a, b⟩ := s
  simp only at hstart hstop
  rw [length_tokens] at hstart hstop
  subst hstop
  have ha : a < l.lexemes.size := by omega
  refine ⟨l.lexemes[a], ?_, ?_, Array.getElem?_eq_getElem ha⟩
  · rw [Array.back?_eq_getElem?, show l.lexemes.size - 1 = a by omega,
      Array.getElem?_eq_getElem ha]
  · rw [site_eq hl ha (Nat.le_refl _)]
    simp [show l.lexemes.size - 1 = a by omega]

end Layout

namespace Tree

/-- A file that breaks off gets a single complaint, about its end or about its last token. -/
theorem parseUnit_incomplete {f : File}
    (hclean : ∀ t ∈ (Layout.ofFile f).tokens, t.isError = false) {post : List Token}
    {ds : List Surface.Decl} (hpost : Surface.parse ((Layout.ofFile f).tokens ++ post) = .ok ds)
    {s : Surface.Span} (h : Surface.parse (Layout.ofFile f).tokens = .error s) (t : Tree) :
    ∃ e d, t.parseUnit f = .error e ∧ e.elements = [d] ∧
      (d = ParseError.diagnostic .endOfInput ⟨f, (Layout.ofFile f).stop, (Layout.ofFile f).stop⟩ ∨
        ∃ x, (Layout.ofFile f).lexemes.back? = some x ∧
          d = ParseError.diagnostic (.unexpected x.token.display) ⟨f, x.start, x.stop⟩) := by
  have hrejected : ¬ f.IsAccepted := by
    rintro ⟨-, ds', hds'⟩
    rw [h] at hds'
    cases hds'
  have hlexical : (Layout.ofFile f).lexicalErrors = [] := by
    rw [Layout.lexicalErrors_eq (Layout.ordered_ofFile f)]
    refine List.map_eq_nil_iff.mpr (List.filter_eq_nil_iff.mpr fun x hx => ?_)
    have htoken := hclean x.token (List.mem_map_of_mem (Layout.ordered_ofFile f ▸ hx))
    simpa using htoken
  have hcomplaints : (Layout.ofFile f).complaints = (Layout.ofFile f).syntaxError s := by
    rw [Layout.complaints, h, hlexical]
    rfl
  have hkept {d : Diagnostic} (hd : (Layout.ofFile f).syntaxError s = [d]) :
      t.parseUnit f = .error (.ofList [d]) ∧ (DiagnosticSet.ofList [d]).elements = [d] := by
    rw [parseUnit_of_not_accepted hrejected, hcomplaints, hd]
    exact ⟨rfl, rfl⟩
  rcases Surface.incomplete_blames hpost h with rfl | ⟨hstart, hstop⟩
  · obtain ⟨hunit, helements⟩ := hkept (Layout.syntaxError_of_eq (Layout.length_tokens _))
    rw [Layout.site_end] at hunit helements
    exact ⟨_, _, hunit, helements, .inl rfl⟩
  · obtain ⟨x, hlast, hsite, hx⟩ := Layout.site_last (Layout.ordered_ofFile f) hstart hstop
    obtain ⟨hlt, hget⟩ := Array.getElem?_eq_some_iff.mp hx
    obtain ⟨hunit, helements⟩ := hkept (Layout.syntaxError_of_lt hclean hlt)
    rw [hsite, hget] at hunit helements
    exact ⟨_, _, hunit, helements, .inr ⟨x, hlast, rfl⟩⟩

def brokenDocument : File := .document "file:///main.orca" "let x = (a"

theorem brokenDocument_layout : Layout.ofFile brokenDocument = ⟨brokenDocument,
    [⟨.keyword .kwLet, 0, 3⟩, ⟨.ident "x", 4, 5⟩, ⟨.punct .assign, 6, 7⟩, ⟨.punct .lparen, 8, 9⟩,
      ⟨.ident "a", 9, 10⟩].toArray⟩ := by
  have htokens : Lexer.tokens "let x = (a".toList = [⟨.keyword .kwLet, 0, 3⟩, ⟨.ident "x", 4, 5⟩,
      ⟨.punct .assign, 6, 7⟩, ⟨.punct .lparen, 8, 9⟩, ⟨.ident "a", 9, 10⟩] := by
    decide +kernel
  rw [Layout.ofFile, ← htokens]
  rfl

theorem brokenDocument_tokens : (Layout.ofFile brokenDocument).tokens =
    [.keyword .kwLet, .ident "x", .punct .assign, .punct .lparen, .ident "a"] := by
  rw [brokenDocument_layout]
  rfl

theorem brokenDocument_rejected :
    ∃ s, Surface.parse (Layout.ofFile brokenDocument).tokens = .error s := by
  have hrun : (Surface.parse (Layout.ofFile brokenDocument).tokens).isOk = false := by
    rw [brokenDocument_tokens]
    decide +kernel
  cases h : Surface.parse (Layout.ofFile brokenDocument).tokens with
  | ok ds => simp [h, Except.isOk, Except.toBool] at hrun
  | error s => exact ⟨s, rfl⟩

theorem brokenDocument_continued :
    ∃ ds, Surface.parse ((Layout.ofFile brokenDocument).tokens ++ [.punct .rparen]) = .ok ds := by
  have hrun : (Surface.parse
      ((Layout.ofFile brokenDocument).tokens ++ [.punct .rparen])).isOk = true := by
    rw [brokenDocument_tokens]
    decide +kernel
  cases h : Surface.parse ((Layout.ofFile brokenDocument).tokens ++ [.punct .rparen]) with
  | ok ds => exact ⟨ds, rfl⟩
  | error s => simp [h, Except.isOk, Except.toBool] at hrun

theorem brokenDocument_incomplete : ∃ e d,
    empty.parseUnit brokenDocument = .error e ∧ e.elements = [d] ∧
      (d = ParseError.diagnostic .endOfInput ⟨brokenDocument, 10, 10⟩ ∨
        d = ParseError.diagnostic (.unexpected "a") ⟨brokenDocument, 9, 10⟩) := by
  obtain ⟨s, hs⟩ := brokenDocument_rejected
  obtain ⟨ds, hds⟩ := brokenDocument_continued
  obtain ⟨e, d, he, hd, hplace⟩ :=
    parseUnit_incomplete (by rw [brokenDocument_tokens]; decide) hds hs empty
  rw [brokenDocument_layout] at hplace
  refine ⟨e, d, he, hd, hplace.imp id ?_⟩
  rintro ⟨x, hlast, rfl⟩
  obtain rfl : ⟨.ident "a", 9, 10⟩ = x := Option.some.inj hlast
  rfl

/-- The end of the tokens is not always blamed, though nothing is wrong but that they end. -/
theorem end_not_blamed : ¬ ∀ (f : File) (t : Tree) (post : List Token) (ds : List Surface.Decl)
    (s : Surface.Span), (∀ t ∈ (Layout.ofFile f).tokens, t.isError = false) → post ≠ [] →
    Surface.parse ((Layout.ofFile f).tokens ++ post) = .ok ds →
    Surface.parse (Layout.ofFile f).tokens = .error s →
    ∃ e, t.parseUnit f = .error e ∧ e.elements =
      [ParseError.diagnostic .endOfInput
        ⟨f, (Layout.ofFile f).stop, (Layout.ofFile f).stop⟩] := by
  intro hall
  obtain ⟨s, hs⟩ := brokenDocument_rejected
  obtain ⟨ds, hds⟩ := brokenDocument_continued
  obtain ⟨e, he, hend⟩ := hall brokenDocument empty _ ds s
    (by rw [brokenDocument_tokens]; decide) (by simp) hds hs
  have hrun : (match empty.parseUnit brokenDocument with
      | .ok _ => []
      | .error e => e.elements.map (·.code)) = ["P0001"] := by
    simp only [parseUnit]
    rw [Layout.ofFile_of_text brokenDocument rfl]
    decide +kernel
  rw [he] at hrun
  simp [hend, ParseError.diagnostic, Diagnostic.error, ParseError.code] at hrun

end Tree

end LanguageService
