import LanguageService.Proofs.PrintedType

/-!
Expressions are read back from their tokens. An expression that is followed by a token of some
grip is complete for the levels that do not reach it.
-/
namespace LanguageService.Surface

open Surface.Parser

variable {rest : List Token}

theorem precedence_disjoint : ∀ i j : Fin precedence.length, i < j → ∀ x ∈ precedence[j],
    precedence[i].contains x = false := by
  decide

theorem contains_iff_level {k : Nat} (hk : k < precedence.length) (x : String) :
    precedence[k].contains x = true ↔ level x = k := by
  rw [level, List.findIdx_eq hk]
  refine ⟨fun h => ⟨h, fun j hj => ?_⟩, fun h => h.1⟩
  exact precedence_disjoint ⟨j, by omega⟩ ⟨k, hk⟩ hj x (by simpa using h)

def grip : Token → Nat
  | .punct .lparen => 0
  | .punct .lbracket => 0
  | .punct .dot => 0
  | .op x => level x + 1
  | _ => precedence.length + 1

def Follows (k : Nat) (rest : List Token) : Prop := ∀ t ∈ rest.head?, k < grip t

def startsExpr : Token → Bool
  | .int _ => true
  | .float _ => true
  | .string _ => true
  | .ident _ => true
  | .keyword .kwTrue => true
  | .keyword .kwFalse => true
  | .keyword .kwSelf => true
  | .punct .lparen => true
  | _ => false

def Starts (ts : List Token) : Prop :=
  ∃ t us, ts = t :: us ∧ startsExpr t = true ∧ ∀ x, t = .ident x → us.head? ≠ some (.punct .colon)

theorem starts_within {e : Expr} {k : Nat} (h : Starts (e.print ++ rest)) :
    Starts (e.within k e.print ++ rest) := by
  rw [Expr.within]
  split
  · exact h
  · exact ⟨.punct .lparen, _, rfl, rfl, by simp⟩

theorem Literal.starts_print (v : Literal) : Starts (v.print :: rest) := by
  refine ⟨v.print, rest, rfl, ?_, fun x hx => ?_⟩
  · cases v with
    | bool b => cases b <;> rfl
    | _ => rfl
  · cases v with
    | bool b => cases b <;> simp [Literal.print] at hx
    | _ => simp [Literal.print] at hx

theorem Expr.starts_print (e : Expr) (rest : List Token)
    (hrest : rest.head? ≠ some (.punct .colon)) : Starts (e.print ++ rest) := by
  match e with
  | .literal _ v => exact v.starts_print
  | .name _ none x =>
      rw [Expr.print, printValueName]
      split
      · exact ⟨.keyword .kwSelf, rest, rfl, rfl, by simp⟩
      · exact ⟨.ident x.text, rest, rfl, rfl, fun _ _ => hrest⟩
  | .name _ (some d) x =>
      rw [Expr.print, List.append_assoc]
      exact starts_within (d.starts_print _ (by simp))
  | .call _ c as =>
      rw [Expr.print, List.append_assoc]
      exact starts_within (c.starts_print _ (by simp [inParens]))
  | .subscript _ c as =>
      rw [Expr.print, List.append_assoc]
      exact starts_within (c.starts_print _ (by simp [inBrackets]))
  | .binary _ l op r =>
      rw [Expr.print, List.append_assoc]
      exact starts_within (l.starts_print _ (by simp))
  | .tuple _ es => exact ⟨.punct .lparen, _, rfl, rfl, by simp⟩

def Trailer.print : Trailer → List Token
  | .call as => inParens (commas (as.map Arg.print))
  | .subscript as => inBrackets (commas (as.map Arg.print))
  | .member x => [.punct .dot, .ident x.text]

def Trailer.erase : Trailer → Trailer
  | .call as => .call (as.map Arg.erase)
  | .subscript as => .subscript (as.map Arg.erase)
  | .member x => .member x.erase

def Trailer.wellFormed : Trailer → Bool
  | .call as => as.all Arg.wellFormed
  | .subscript as => as.all Arg.wellFormed
  | .member x => isIdent x.text

def Expr.spine : Expr → Expr × List Trailer
  | .name _ (some d) x => (d.spine.1, d.spine.2 ++ [.member x])
  | .call _ c as => (c.spine.1, c.spine.2 ++ [.call as])
  | .subscript _ c as => (c.spine.1, c.spine.2 ++ [.subscript as])
  | e => (e, [])

def Trailer.graft (e : Expr) : Trailer → Expr
  | .call as => .call .zero e as
  | .subscript as => .subscript .zero e as
  | .member x => .name .zero (some e) x

theorem Trailer.erase_apply (e : Expr) (t : Trailer) (s : Span) :
    (t.apply e s).erase = t.erase.graft e.erase := by
  cases t <;> simp [Trailer.apply, Trailer.erase, Trailer.graft, Expr.erase, Expr.eraseArgs_eq_map]

theorem Expr.erase_spine (e : Expr) :
    e.erase = (e.spine.2.map Trailer.erase).foldl Trailer.graft e.spine.1.erase := by
  fun_induction Expr.spine e with
  | case1 s d x ih => simp [Expr.erase, ih, Trailer.erase, Trailer.graft]
  | case2 s c as ih => simp [Expr.erase, ih, Expr.eraseArgs_eq_map, Trailer.erase, Trailer.graft]
  | case3 s c as ih => simp [Expr.erase, ih, Expr.eraseArgs_eq_map, Trailer.erase, Trailer.graft]
  | case4 e => rfl

theorem Expr.within_of_le {e : Expr} {k : Nat} (h : e.looseness ≤ k) (ts : List Token) :
    e.within k ts = ts := if_pos h

theorem Expr.within_spine (e : Expr) :
    e.within 0 e.print =
      e.spine.1.within 0 e.spine.1.print ++ e.spine.2.flatMap Trailer.print := by
  fun_induction Expr.spine e with
  | case1 s d x ih =>
      rw [Expr.within_of_le (Nat.zero_le 0), Expr.print, ih, List.append_assoc]
      simp [Trailer.print]
  | case2 s c as ih =>
      rw [Expr.within_of_le (Nat.zero_le 0), Expr.print, ih, List.append_assoc]
      simp [Trailer.print, Expr.printArgs_eq_map]
  | case3 s c as ih =>
      rw [Expr.within_of_le (Nat.zero_le 0), Expr.print, ih, List.append_assoc]
      simp [Trailer.print, Expr.printArgs_eq_map]
  | case4 e => simp

theorem forall_mem_concat {α : Type} {P : α → Prop} {xs : List α} {x : α}
    (hxs : ∀ y ∈ xs, P y) (hx : P x) : ∀ y ∈ xs ++ [x], P y := by
  intro y hy
  rcases List.mem_append.mp hy with h | h
  · exact hxs y h
  · rwa [List.mem_singleton.mp h]

theorem Expr.spine_wellFormed (e : Expr) (h : e.wellFormed = true) :
    e.spine.1.wellFormed = true ∧ ∀ t ∈ e.spine.2, t.wellFormed = true := by
  fun_induction Expr.spine e with
  | case1 s d x ih =>
      rw [Expr.wellFormed, Bool.and_eq_true] at h
      exact ⟨(ih h.1).1, forall_mem_concat (ih h.1).2 h.2⟩
  | case2 s c as ih =>
      rw [Expr.wellFormed, Bool.and_eq_true, Expr.argsWellFormed_eq_all] at h
      exact ⟨(ih h.1).1, forall_mem_concat (ih h.1).2 h.2⟩
  | case3 s c as ih =>
      rw [Expr.wellFormed, Bool.and_eq_true, Expr.argsWellFormed_eq_all] at h
      exact ⟨(ih h.1).1, forall_mem_concat (ih h.1).2 h.2⟩
  | case4 e => exact ⟨h, by simp⟩

theorem Expr.spine_spine (e : Expr) : e.spine.1.spine.2 = [] := by
  fun_induction Expr.spine e with
  | case1 s d x ih => exact ih
  | case2 s c as ih => exact ih
  | case3 s c as ih => exact ih
  | case4 e h₁ h₂ h₃ => rw [Expr.spine] <;> assumption

theorem follows_cons {t : Token} (h : grip t = precedence.length + 1) (us : List Token) :
    Follows precedence.length (t :: us) := by
  intro u hu
  obtain rfl : t = u := by simpa using hu
  omega

theorem Follows.le {k j : Nat} (h : Follows k rest) (hj : j ≤ k) : Follows j rest :=
  fun t ht => Nat.lt_of_le_of_lt hj (h t ht)

def ReadsExprs (inner : Parser Expr) (n : Nat) : Prop :=
  ∀ e : Expr, e.wellFormed = true → e.print.length < n → ∀ rest,
    Follows precedence.length rest → Reads inner e.print (fun e' => e'.erase = e.erase) rest

def RefusesOthers (inner : Parser Expr) : Prop :=
  ∀ ts, (∀ t ∈ ts.head?, startsExpr t = false) → Refuses inner ts

theorem Starts.refuses_label {ts : List Token} (h : Starts ts) :
    Refuses (do let x ← ident; punct .colon; return x) ts := by
  obtain ⟨t, us, rfl, -, hcolon⟩ := h
  by_cases hident : ∃ x, t = .ident x
  · obtain ⟨x, rfl⟩ := hident
    refine Reads.refuses (reads_ident ⟨x, .zero⟩) fun _ => Refuses.bind (refuses_punct ?_)
    intro u hu hu'
    exact hcolon x rfl (hu' ▸ hu)
  · exact Refuses.bind (refuses_ident (by simpa using hident))

section Operand

variable {inner : Parser Expr} {n : Nat} (hreads : ReadsExprs inner n)
  (hrefuses : RefusesOthers inner)

include hreads in
theorem argIn_reads (a : Arg) (hwf : a.wellFormed = true) (hlen : a.print.length < n)
    (hrest : Follows precedence.length rest) (hcolon : rest.head? ≠ some (.punct .colon)) :
    Reads (argIn inner) a.print (fun a' => Arg.erase a' = a.erase) rest := by
  obtain ⟨label, e⟩ := a
  rw [Arg.wellFormed, Bool.and_eq_true] at hwf
  rw [Arg.print, List.length_append] at hlen
  change _ + e.print.length < n at hlen
  have he := hreads e hwf.2 (by omega) rest hrest
  refine Reads.bind ?_ fun l (hl : l.map Name.erase = label.map Name.erase) =>
    he.map fun e' he' => by rw [Arg.erase, hl, he', Arg.erase]
  cases label with
  | none => exact reads_optional_none (e.starts_print rest hcolon).refuses_label rfl
  | some x =>
      refine reads_optional (Reads.bind (reads_ident x) fun y hy =>
        (reads_punct .colon).map fun _ _ => hy) fun y hy => ?_
      rw [Option.map_some, hy, Option.map_some]

include hrefuses in
theorem argIn_refuses {t : Token} (ht : startsExpr t = false) :
    Refuses (argIn inner) (t :: rest) := by
  have hident : Refuses ident (t :: rest) := by
    refine refuses_ident fun u hu x hx => ?_
    obtain rfl : t = u := by simpa using hu
    simp [hx, startsExpr] at ht
  have hlabel : Reads (optional (do let x ← ident; punct .colon; return x)) []
      (fun _ => True) (t :: rest) := reads_optional_none hident.bind trivial
  exact hlabel.refuses fun _ => Refuses.bind (hrefuses _ (by simpa using ht))

include hreads hrefuses in
theorem args_reads (as : List Arg) {close : Token} (hwf : as.all Arg.wellFormed = true)
    (hlen : (commas (as.map Arg.print)).length < n) (hclose : startsExpr close = false)
    (hgrip : grip close = precedence.length + 1) (hcomma : close ≠ .punct .comma)
    (hcolon : close ≠ .punct .colon) :
    Reads (separatedTrailing (argIn inner) comma) (commas (as.map Arg.print))
      (fun bs => bs.map Arg.erase = as.map Arg.erase) (close :: rest) := by
  refine reads_separatedTrailing as hcomma (argIn_refuses hrefuses hclose) ?_
  intro a ha t ht us
  have hle : a.print.length ≤ _ := length_le_commas (List.mem_map_of_mem ha)
  have hawf := List.all_eq_true.mp hwf a ha
  rcases ht with rfl | rfl
  · exact argIn_reads hreads a hawf (by omega) (follows_cons rfl us) (by simp)
  · exact argIn_reads hreads a hawf (by omega) (follows_cons hgrip us) (by simpa using hcolon)

include hreads hrefuses in
theorem trailerIn_reads (t : Trailer) (hwf : t.wellFormed = true) (hlen : t.print.length ≤ n) :
    Reads (trailerIn inner) t.print (fun p => p.1.erase = t.erase) rest := by
  refine reads_spanned ?_
  cases t with
  | call as =>
      rw [Trailer.print, inParens, List.length_cons, List.length_append] at hlen
      have hargs : Reads (separatedTrailing (argIn inner) comma) (commas (as.map Arg.print))
          (fun bs => bs.map Arg.erase = as.map Arg.erase) (.punct .rparen :: rest) :=
        args_reads hreads hrefuses as hwf (by omega) rfl rfl (by simp) (by simp)
      refine .choice ((reads_parens hargs).map fun bs hbs s => ?_)
      rw [Trailer.erase, hbs, Trailer.erase]
  | subscript as =>
      rw [Trailer.print, inBrackets, List.length_cons, List.length_append] at hlen
      have hargs : Reads (separatedTrailing (argIn inner) comma) (commas (as.map Arg.print))
          (fun bs => bs.map Arg.erase = as.map Arg.erase) (.punct .rbracket :: rest) :=
        args_reads hreads hrefuses as hwf (by omega) rfl rfl (by simp) (by simp)
      refine Refuses.choice (Refuses.bind (refuses_parens (by simp [Trailer.print, inBrackets])))
        (.choice ((reads_brackets hargs).map fun bs hbs s => ?_))
      rw [Trailer.erase, hbs, Trailer.erase]
  | member x =>
      refine Refuses.choice (Refuses.bind (refuses_parens (by simp [Trailer.print])))
        (Refuses.choice (Refuses.bind (refuses_brackets (by simp [Trailer.print])))
          (.choice (Reads.bind (reads_punct .dot) fun _ _ =>
            (reads_ident x).map fun y hy s => ?_)))
      rw [Trailer.erase, hy, Trailer.erase]

theorem trailerIn_refuses {k : Nat} (h : Follows k rest) : Refuses (trailerIn inner) rest := by
  have hne {t u : Token} (ht : t ∈ rest.head?) (hu : grip u = 0) : t ≠ u := by
    intro heq
    have := h t ht
    rw [heq, hu] at this
    omega
  refine refuses_spanned (refuses_choice ?_)
  intro p hp
  simp only [List.mem_cons, List.not_mem_nil, or_false] at hp
  rcases hp with rfl | rfl | rfl
  · exact Refuses.bind (refuses_parens fun t ht => hne ht rfl)
  · exact Refuses.bind (refuses_brackets fun t ht => hne ht rfl)
  · exact Refuses.bind (refuses_punct fun t ht => hne ht rfl)

theorem literal_reads (v : Literal) : Reads literal [v.print] (fun w => w = v) rest := by
  refine reads_token fun s => ⟨v, ?_, rfl⟩
  cases v with
  | bool b => cases b <;> rfl
  | _ => rfl

theorem literal_refuses (t : Token)
    (ht : startsExpr t = false ∨ t = .punct .lparen ∨ t = .keyword .kwSelf ∨ ∃ x, t = .ident x) :
    Refuses literal (t :: rest) := by
  refine refuses_token fun u hu s => ?_
  obtain rfl : t = u := by simpa using hu
  cases t with
  | keyword k => cases k <;> simp_all [startsExpr]
  | _ => simp_all [startsExpr]

theorem valueName_reads (x : Name) :
    Reads (orElse ident selfName) [printValueName x.text] (fun y => y.erase = x.erase) rest := by
  rw [printValueName]
  split
  · next h =>
      refine Refuses.orElse (refuses_ident (by simp)) (reads_token fun s => ⟨⟨"self", s⟩, rfl, ?_⟩)
      rw [Name.erase, Name.erase, h]
  · exact (reads_ident x).orElse

include hreads in
theorem exprs_reads (es : List Expr) (hrefuses : RefusesOthers inner)
    (hwf : es.all Expr.wellFormed = true) (hlen : (commas (es.map Expr.print)).length < n) :
    Reads (separatedTrailing inner comma) (commas (es.map Expr.print))
      (fun bs => bs.map Expr.erase = es.map Expr.erase) (.punct .rparen :: rest) := by
  refine reads_separatedTrailing es (by simp) (hrefuses _ (by simp [startsExpr])) ?_
  intro e he t ht us
  have hle : e.print.length ≤ _ := length_le_commas (List.mem_map_of_mem he)
  have hewf := List.all_eq_true.mp hwf e he
  refine hreads e hewf (by omega) _ ?_
  rcases ht with rfl | rfl
  · exact follows_cons rfl us
  · exact follows_cons rfl us

include hreads hrefuses in
theorem parens_reads (es : List Expr) (hwf : es.all Expr.wellFormed = true)
    (hlen : (inParens (commas (es.map Expr.print))).length ≤ n) {fine : Expr → Prop}
    (hfine : ∀ bs : List Expr, bs.map Expr.erase = es.map Expr.erase →
      ∀ s, fine (parenthesized bs s)) :
    Reads (atomIn inner) (inParens (commas (es.map Expr.print))) fine rest := by
  rw [inParens, List.length_cons, List.length_append] at hlen
  have hlist : Reads (parens (separatedTrailing inner comma))
      (inParens (commas (es.map Expr.print)))
      (fun bs => bs.map Expr.erase = es.map Expr.erase) rest :=
    reads_parens (exprs_reads hreads es hrefuses hwf (by omega))
  have hname : Refuses (orElse ident selfName)
      (inParens (commas (es.map Expr.print)) ++ rest) :=
    refuses_orElse (refuses_ident (by simp [inParens])) (refuses_token (by simp [inParens]))
  exact reads_spanned (Refuses.choice (Refuses.bind (literal_refuses _ (.inr (.inl rfl))))
    (Refuses.choice hname.bind (.choice (hlist.map hfine))))

include hreads hrefuses in
theorem atomIn_reads (a : Expr) (hspine : a.spine.2 = []) (hwf : a.wellFormed = true)
    (hlen : (a.within 0 a.print).length ≤ n) :
    Reads (atomIn inner) (a.within 0 a.print) (fun e => e.erase = a.erase) rest := by
  match a with
  | .literal s v =>
      refine reads_spanned (.choice ((literal_reads v).map fun w hw s' => ?_))
      rw [Expr.erase, hw, Expr.erase]
  | .name s none x =>
      have hliteral : Refuses literal ([printValueName x.text] ++ rest) := by
        refine literal_refuses _ ?_
        rw [printValueName]
        split
        · exact .inr (.inr (.inl rfl))
        · exact .inr (.inr (.inr ⟨_, rfl⟩))
      refine reads_spanned (Refuses.choice hliteral.bind
        (.choice ((valueName_reads x).map fun y hy s' => ?_)))
      rw [Expr.erase, hy, Expr.erase]
  | .tuple s es =>
      rw [Expr.within_of_le (Nat.zero_le 0), Expr.print, Expr.printAll_eq_map] at hlen ⊢
      rw [Expr.wellFormed, Bool.and_eq_true, Expr.allWellFormed_eq_all] at hwf
      have hone : es.length ≠ 1 := by simpa using hwf.1
      refine parens_reads hreads hrefuses es hwf.2 hlen fun bs hbs s' => ?_
      have hbone : bs.length ≠ 1 := by
        have := congrArg List.length hbs
        simp only [List.length_map] at this
        omega
      have htuple : parenthesized bs s' = .tuple s' bs := by
        match bs, hbone with
        | [], _ => rfl
        | _ :: _ :: _, _ => rfl
      rw [htuple, Expr.erase, Expr.erase, Expr.eraseAll_eq_map, Expr.eraseAll_eq_map, hbs]
  | .binary s l op r =>
      have hparen : (Expr.binary s l op r).within 0 (Expr.binary s l op r).print =
          inParens (commas ([Expr.binary s l op r].map Expr.print)) := by
        simp [Expr.within, Expr.looseness, commas]
      rw [hparen] at hlen ⊢
      refine parens_reads hreads hrefuses [_] (by simpa using hwf) hlen fun bs hbs s' => ?_
      obtain ⟨b, rfl⟩ : ∃ b, bs = [b] :=
        List.length_eq_one_iff.mp (by simpa using congrArg List.length hbs)
      simpa [parenthesized] using hbs
  | .name s (some d) x => simp [Expr.spine] at hspine
  | .call s c as => simp [Expr.spine] at hspine
  | .subscript s c as => simp [Expr.spine] at hspine

theorem length_le_flatMap_of_mem {ι : Type} (print : ι → List Token) {x : ι} {xs : List ι}
    (h : x ∈ xs) : (print x).length ≤ (xs.flatMap print).length :=
  (List.sublist_flatten_of_mem (List.mem_map_of_mem h)).length_le

theorem erase_foldl_apply (ts : List (Trailer × Span)) (a : Expr) :
    (ts.foldl (fun e p => p.1.apply e p.2) a).erase =
      (ts.map (·.1.erase)).foldl Trailer.graft a.erase := by
  induction ts generalizing a with
  | nil => rfl
  | cons p ts ih => rw [List.foldl_cons, ih, Trailer.erase_apply, List.map_cons, List.foldl_cons]

include hreads hrefuses in
theorem operandIn_reads (e : Expr) (hwf : e.wellFormed = true)
    (hlen : (e.within 0 e.print).length ≤ n) (hrest : Follows 0 rest) :
    Reads (operandIn inner) (e.within 0 e.print) (fun e' => e'.erase = e.erase) rest := by
  rw [Expr.within_spine] at hlen ⊢
  rw [List.length_append] at hlen
  have hspine := e.spine_wellFormed hwf
  have htrailers : Reads (many (trailerIn inner)) (e.spine.2.flatMap Trailer.print)
      (fun ps => ps.map (·.1.erase) = e.spine.2.map Trailer.erase) rest := by
    refine reads_many e.spine.2 (trailerIn_refuses hrest) ?_ ?_
    · intro t _
      cases t <;> simp [Trailer.print, inParens, inBrackets]
    · intro t ts hts
      have ht : t ∈ e.spine.2 := hts.subset (by simp)
      refine trailerIn_reads hreads hrefuses t (hspine.2 t ht) ?_
      have hle := length_le_flatMap_of_mem Trailer.print ht
      omega
  refine Reads.bind (atomIn_reads hreads hrefuses e.spine.1 e.spine_spine hspine.1 (by omega))
    fun a ha => htrailers.map fun ps hps => ?_
  rw [erase_foldl_apply, hps, ha, ← Expr.erase_spine]

end Operand

def Expr.chain (k : Nat) : Expr → Expr × List (Name × Expr)
  | .binary s l op r =>
      if level op.text = k then ((l.chain k).1, (l.chain k).2 ++ [(op, r)])
      else (.binary s l op r, [])
  | e => (e, [])

def printOperation (k : Nat) (p : Name × Expr) : List Token :=
  .op p.1.text :: p.2.within k p.2.print

def eraseOperation (p : Name × Expr) : Name × Expr := (p.1.erase, p.2.erase)

theorem Expr.within_succ {e : Expr} {k : Nat} (h : e.looseness ≠ k + 1) (ts : List Token) :
    e.within (k + 1) ts = e.within k ts := by
  rw [Expr.within, Expr.within]
  by_cases hk : e.looseness ≤ k
  · rw [if_pos hk, if_pos (by omega)]
  · rw [if_neg hk, if_neg (by omega)]

theorem Expr.within_chain (k : Nat) (e : Expr) :
    e.within (k + 1) e.print =
      (e.chain k).1.within k (e.chain k).1.print ++ (e.chain k).2.flatMap (printOperation k) := by
  fun_induction Expr.chain k e with
  | case1 s l op r hop ih =>
      have hloose : (Expr.binary s l op r).looseness ≤ k + 1 := by
        simp [Expr.looseness, hop]
      rw [Expr.within_of_le hloose, Expr.print, hop, ih]
      simp [printOperation]
  | case2 s l op r hop =>
      rw [Expr.within_succ (by rw [Expr.looseness]; omega)]
      simp
  | case3 e h =>
      have hzero : e.looseness = 0 := by
        cases e with
        | binary s l op r => exact absurd rfl (h s l op r)
        | _ => rfl
      rw [Expr.within_succ (by omega)]
      simp

theorem Expr.chain_wellFormed (k : Nat) (e : Expr) (h : e.wellFormed = true) :
    (e.chain k).1.wellFormed = true ∧
      ∀ p ∈ (e.chain k).2, level p.1.text = k ∧ p.2.wellFormed = true := by
  fun_induction Expr.chain k e with
  | case1 s l op r hop ih =>
      simp only [Expr.wellFormed, Bool.and_eq_true] at h
      exact ⟨(ih h.1.1).1, forall_mem_concat (ih h.1.1).2 ⟨hop, h.1.2⟩⟩
  | case2 s l op r hop => exact ⟨h, by simp⟩
  | case3 e _ => exact ⟨h, by simp⟩

def graftOperation (e : Expr) (p : Name × Expr) : Expr := .binary .zero e p.1 p.2

theorem Expr.erase_chain (k : Nat) (e : Expr) :
    e.erase = ((e.chain k).2.map eraseOperation).foldl graftOperation (e.chain k).1.erase := by
  fun_induction Expr.chain k e with
  | case1 s l op r hop ih => simp [Expr.erase, ih, eraseOperation, graftOperation]
  | case2 s l op r hop => rfl
  | case3 e _ => rfl

theorem erase_foldl_binary (ps : List (Name × Expr)) (e : Expr) :
    (ps.foldl (fun l p => .binary (l.span.to p.2.span) l p.1 p.2) e).erase =
      (ps.map eraseOperation).foldl graftOperation e.erase := by
  induction ps generalizing e with
  | nil => rfl
  | cons p ps ih =>
      rw [List.foldl_cons, ih, List.map_cons, List.foldl_cons]
      rfl

def levelParser (inner : Parser Expr) (k : Nat) : Parser Expr :=
  (precedence.take k).foldl binaryLevel (operandIn inner)

theorem levelParser_succ (inner : Parser Expr) {k : Nat} (hk : k < precedence.length) :
    levelParser inner (k + 1) = binaryLevel (levelParser inner k) precedence[k] := by
  rw [levelParser, ← List.take_append_getElem hk, List.foldl_append]
  rfl

theorem levelParser_reads {inner : Parser Expr} {n : Nat} (hreads : ReadsExprs inner n)
    (hrefuses : RefusesOthers inner) (k : Nat) (hk : k ≤ precedence.length) (e : Expr)
    (hwf : e.wellFormed = true) (hlen : (e.within k e.print).length ≤ n)
    (hrest : Follows k rest) :
    Reads (levelParser inner k) (e.within k e.print) (fun e' => e'.erase = e.erase) rest := by
  induction k generalizing e rest with
  | zero => exact operandIn_reads hreads hrefuses e hwf hlen hrest
  | succ k ih =>
      have hk' : k < precedence.length := hk
      rw [levelParser_succ inner hk']
      rw [Expr.within_chain] at hlen ⊢
      rw [List.length_append] at hlen
      have hchain := e.chain_wellFormed k hwf
      have hfollows : ∀ ps, ps <:+ (e.chain k).2 →
          Follows k (ps.flatMap (printOperation k) ++ rest) := by
        intro ps hps
        cases ps with
        | nil => exact hrest.le (Nat.le_succ k)
        | cons p ps =>
            have hp := (hchain.2 p (hps.subset (by simp))).1
            intro t ht
            obtain rfl : Token.op p.1.text = t := by simpa [printOperation] using ht
            rw [grip, hp]
            omega
      have hops : Refuses (operatorIn precedence[k]) rest := by
        refine refuses_operatorIn fun t ht x hx => ?_
        have hgrip := hrest t ht
        rw [hx, grip] at hgrip
        rw [← Bool.not_eq_true, contains_iff_level hk']
        omega
      have hmany : Reads (many (do
            let op ← operatorIn precedence[k]
            let rhs ← levelParser inner k
            return (op, rhs))) ((e.chain k).2.flatMap (printOperation k))
          (fun ps => ps.map eraseOperation = (e.chain k).2.map eraseOperation) rest := by
        refine reads_many (e.chain k).2 hops.bind (by simp [printOperation]) fun p ps hps => ?_
        have hp : p ∈ (e.chain k).2 := hps.subset (by simp)
        obtain ⟨hlevel, hpwf⟩ := hchain.2 p hp
        have hle := length_le_flatMap_of_mem (printOperation k) hp
        rw [printOperation, List.length_cons] at hle
        have hrhs := ih (Nat.le_of_lt hk') p.2 hpwf (by omega)
          (hfollows ps ((List.suffix_cons p ps).trans hps))
        refine Reads.bind (reads_operatorIn p.1 ((contains_iff_level hk' _).mpr hlevel))
          fun op hop => hrhs.map fun rhs hr => ?_
        rw [eraseOperation, hop, hr, eraseOperation]
      refine Reads.bind (ih (Nat.le_of_lt hk') _ hchain.1 (by omega)
        (hfollows _ List.suffix_rfl)) fun f hf => hmany.map fun ps hps => ?_
      rw [erase_foldl_binary, hps, hf, ← Expr.erase_chain]

theorem levelParser_refuses {inner : Parser Expr} {ts : List Token}
    (h : ∀ t ∈ ts.head?, startsExpr t = false) (k : Nat) (hk : k ≤ precedence.length) :
    Refuses (levelParser inner k) ts := by
  induction k with
  | succ k ih =>
      rw [levelParser_succ inner hk]
      exact Refuses.bind (ih (Nat.le_of_lt hk))
  | zero =>
      refine Refuses.bind (refuses_spanned (refuses_choice ?_))
      intro p hp
      simp only [List.mem_cons, List.not_mem_nil, or_false] at hp
      have hne {t u : Token} (ht : t ∈ ts.head?) (hu : startsExpr u = true) : t ≠ u := by
        intro heq
        have := h t ht
        rw [heq, hu] at this
        exact absurd this (by simp)
      rcases hp with rfl | rfl | rfl
      · refine Refuses.bind ?_
        cases ts with
        | nil => exact refuses_token (by simp)
        | cons t ts => exact literal_refuses t (.inl (h t (by simp)))
      · refine Refuses.bind (refuses_orElse (refuses_ident fun t ht x => hne ht rfl)
          (refuses_token fun t ht s => if_neg (hne ht rfl)))
      · exact Refuses.bind (refuses_parens fun t ht => hne ht rfl)

theorem exprIn_eq (inner : Parser Expr) : exprIn inner = levelParser inner precedence.length := by
  rw [levelParser, List.take_length, exprIn]

theorem exprAt_refuses (n : Nat) : RefusesOthers (exprAt n) := by
  intro ts h
  cases n with
  | zero => exact refuses_fail ts
  | succ n =>
      change Refuses (exprIn (exprAt n)) ts
      rw [exprIn_eq]
      exact levelParser_refuses h _ (Nat.le_refl _)

theorem Expr.looseness_le {e : Expr} (h : e.wellFormed = true) :
    e.looseness ≤ precedence.length := by
  cases e with
  | binary s l op r =>
      simp only [Expr.wellFormed, Bool.and_eq_true, decide_eq_true_eq] at h
      exact h.2
  | _ => exact Nat.zero_le _

theorem exprAt_reads (n : Nat) : ReadsExprs (exprAt n) n := by
  induction n with
  | zero => exact fun e _ h => absurd h (Nat.not_lt_zero _)
  | succ n ih =>
      intro e hwf hlen rest hrest
      have hwithin := Expr.within_of_le (Expr.looseness_le hwf) e.print
      have h := levelParser_reads ih (exprAt_refuses n) _ (Nat.le_refl _) e hwf
        (by rw [hwithin]; omega) hrest
      rw [hwithin, ← exprIn_eq] at h
      exact h

theorem expr_reads (e : Expr) (hwf : e.wellFormed = true)
    (hrest : Follows precedence.length rest) :
    Reads expr e.print (fun e' => e'.erase = e.erase) rest := by
  intro pos r
  refine exprAt_reads _ e hwf ?_ rest hrest pos r
  simp only [List.length_append]
  omega

theorem expr_refuses : RefusesOthers expr := fun ts h pos r => exprAt_refuses _ ts h pos r

end LanguageService.Surface
