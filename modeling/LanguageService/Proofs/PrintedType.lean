import LanguageService.Proofs.Printing
import LanguageService.Proofs.Reading

namespace LanguageService.Surface

open Surface.Parser

variable {α γ ι : Type} {ts rest : List Token}

theorem reads_punct (p : Punct) : Reads (punct p) [.punct p] (fun _ => True) rest :=
  reads_token fun _ => ⟨(), by simp, trivial⟩

theorem refuses_punct {p : Punct} (h : ∀ t ∈ ts.head?, t ≠ .punct p) : Refuses (punct p) ts :=
  refuses_token fun t ht _ => by simp [h t ht]

theorem reads_keyword (k : Keyword) : Reads (keyword k) [.keyword k] (fun _ => True) rest :=
  reads_token fun s => ⟨s, by simp, trivial⟩

theorem refuses_keyword {k : Keyword} (h : ∀ t ∈ ts.head?, t ≠ .keyword k) :
    Refuses (keyword k) ts :=
  refuses_token fun t ht _ => by simp [h t ht]

theorem reads_ident (x : Name) :
    Reads ident [.ident x.text] (fun y => y.erase = x.erase) rest :=
  reads_token fun s => ⟨⟨x.text, s⟩, rfl, rfl⟩

theorem refuses_ident (h : ∀ t ∈ ts.head?, ∀ x, t ≠ .ident x) : Refuses ident ts := by
  refine refuses_token fun t ht s => ?_
  cases t with
  | ident x => exact absurd rfl (h _ ht x)
  | _ => rfl

theorem reads_anyOperator (x : Name) :
    Reads anyOperator [.op x.text] (fun y => y.erase = x.erase) rest :=
  reads_token fun s => ⟨⟨x.text, s⟩, rfl, rfl⟩

theorem reads_operatorIn {ops : List String} (x : Name) (h : ops.contains x.text = true) :
    Reads (operatorIn ops) [.op x.text] (fun y => y.erase = x.erase) rest :=
  reads_token fun s => ⟨⟨x.text, s⟩, by simp only [h, if_true], rfl⟩

theorem refuses_operatorIn {ops : List String}
    (h : ∀ t ∈ ts.head?, ∀ x, t = .op x → ops.contains x = false) :
    Refuses (operatorIn ops) ts := by
  refine refuses_token fun t ht s => ?_
  cases t with
  | op x => simp only [h _ ht x rfl, Bool.false_eq_true, if_false]
  | _ => rfl

theorem reads_parens {p : Parser α} {good : α → Prop}
    (hp : Reads p ts good (.punct .rparen :: rest)) :
    Reads (parens p) (inParens ts) good rest :=
  reads_between (reads_punct _) hp (reads_punct _)

theorem refuses_parens {p : Parser α} (h : ∀ t ∈ ts.head?, t ≠ .punct .lparen) :
    Refuses (parens p) ts :=
  refuses_between (refuses_punct h)

theorem reads_brackets {p : Parser α} {good : α → Prop}
    (hp : Reads p ts good (.punct .rbracket :: rest)) :
    Reads (brackets p) (inBrackets ts) good rest :=
  reads_between (reads_punct _) hp (reads_punct _)

theorem refuses_brackets {p : Parser α} (h : ∀ t ∈ ts.head?, t ≠ .punct .lbracket) :
    Refuses (brackets p) ts :=
  refuses_between (refuses_punct h)

theorem reads_braces {p : Parser α} {good : α → Prop}
    (hp : Reads p ts good (.punct .rbrace :: rest)) :
    Reads (braces p) (inBraces ts) good rest :=
  reads_between (reads_punct _) hp (reads_punct _)

theorem refuses_braces {p : Parser α} (h : ∀ t ∈ ts.head?, t ≠ .punct .lbrace) :
    Refuses (braces p) ts :=
  refuses_between (refuses_punct h)

theorem optional_reads {p : Parser α} {print : α → List Token} {view : α → γ} (a : Option α)
    (hrefuses : Refuses p rest)
    (hreads : ∀ b, a = some b → Reads p (print b) (fun c => view c = view b) rest) :
    Reads (optional p) (printOptional print a) (fun c => c.map view = a.map view) rest := by
  cases a with
  | none => exact reads_optional_none hrefuses rfl
  | some b =>
      refine reads_optional (hreads b rfl) fun c hc => ?_
      rw [Option.map_some, hc, Option.map_some]

section Separated

variable {p : Parser α} {print : ι → List Token} {view : α → γ} {key : ι → γ} {close : Token}

theorem reads_before_commas {x : ι} {xs : List ι}
    (hx : ∀ t, t = .punct .comma ∨ t = close → ∀ us,
      Reads p (print x) (fun a => view a = key x) (t :: us)) :
    Reads p (print x) (fun a => view a = key x)
      (xs.flatMap (fun y => .punct .comma :: print y) ++ close :: rest) := by
  cases xs with
  | nil => exact hx close (.inr rfl) rest
  | cons y ys => exact hx (.punct .comma) (.inl rfl) _

theorem reads_after_commas (xs : List ι) (hclose : close ≠ .punct .comma)
    (hxs : ∀ y ∈ xs, ∀ t, t = .punct .comma ∨ t = close → ∀ us,
      Reads p (print y) (fun a => view a = key y) (t :: us)) :
    Reads (many (do comma; p)) (xs.flatMap fun y => .punct .comma :: print y)
      (fun as => as.map view = xs.map key) (close :: rest) := by
  refine reads_many xs (Refuses.bind (refuses_punct (by simpa using hclose))) (by simp) ?_
  intro y ys hy
  have hmem : y ∈ xs := hy.subset (by simp)
  exact Reads.bind (reads_punct .comma) fun _ _ => reads_before_commas (hxs y hmem)

theorem commas_map (x : ι) (xs : List ι) :
    commas ((x :: xs).map print) = print x ++ xs.flatMap fun y => .punct .comma :: print y := by
  rw [List.map_cons, commas, List.flatMap_map]

theorem reads_separated1 (x : ι) (xs : List ι) (hclose : close ≠ .punct .comma)
    (hxs : ∀ y ∈ x :: xs, ∀ t, t = .punct .comma ∨ t = close → ∀ us,
      Reads p (print y) (fun a => view a = key y) (t :: us)) :
    Reads (separated1 p comma) (commas ((x :: xs).map print))
      (fun as => as.map view = (x :: xs).map key) (close :: rest) := by
  rw [commas_map]
  refine Reads.bind (reads_before_commas (hxs x (by simp))) fun a ha => ?_
  refine (reads_after_commas xs hclose fun y hy => hxs y (by simp [hy])).map fun as has => ?_
  rw [List.map_cons, ha, has, List.map_cons]

theorem reads_separatedTrailing (xs : List ι) (hclose : close ≠ .punct .comma)
    (hrest : Refuses p (close :: rest))
    (hxs : ∀ y ∈ xs, ∀ t, t = .punct .comma ∨ t = close → ∀ us,
      Reads p (print y) (fun a => view a = key y) (t :: us)) :
    Reads (separatedTrailing p comma) (commas (xs.map print))
      (fun as => as.map view = xs.map key) (close :: rest) := by
  cases xs with
  | nil => exact Refuses.orElse hrest.bind (reads_pure rfl)
  | cons x xs =>
      have hhead : Reads p (print x) (fun a => view a = key x)
          (xs.flatMap (fun y => .punct .comma :: print y) ++ [] ++ close :: rest) := by
        rw [List.append_nil]
        exact reads_before_commas (hxs x (by simp))
      have hend : Reads (optional comma) [] (fun _ => True) (close :: rest) :=
        reads_optional_none (refuses_punct (by simpa using hclose)) trivial
      rw [commas_map, ← List.append_nil (xs.flatMap _)]
      refine Reads.orElse (Reads.bind hhead fun a ha => ?_)
      refine Reads.bind (reads_after_commas xs hclose fun y hy => hxs y (by simp [hy]))
        fun as has => hend.map fun _ _ => ?_
      rw [List.map_cons, ha, has, List.map_cons]

end Separated

theorem length_le_commas {us : List Token} {tss : List (List Token)} (h : us ∈ tss) :
    us.length ≤ (commas tss).length := by
  obtain ⟨before, after, rfl⟩ := List.append_of_mem h
  cases before with
  | nil => simp [commas]
  | cons vs before =>
      simp only [List.cons_append, commas, List.flatMap_append, List.flatMap_cons,
        List.length_append, List.length_cons]
      omega

theorem length_lt_inParens {xs : List ι} {print : ι → List Token} {x : ι} {n : Nat}
    (h : (inParens (commas (xs.map print))).length < n + 1) (hx : x ∈ xs) :
    (print x).length < n := by
  have hle : (print x).length ≤ (commas (xs.map print)).length :=
    length_le_commas (List.mem_map_of_mem hx)
  simp only [inParens, List.length_cons, List.length_append] at h
  omega

theorem typeExprAt_refuses (n : Nat) (h : ∀ t ∈ ts.head?, ∀ x, t ≠ .ident x)
    (hparen : ∀ t ∈ ts.head?, t ≠ .punct .lparen) : Refuses (typeExprAt n) ts := by
  cases n with
  | zero => exact refuses_fail ts
  | succ n =>
      refine refuses_spanned (refuses_choice ?_)
      intro p hp
      simp only [List.mem_cons, List.not_mem_nil, or_false] at hp
      rcases hp with rfl | rfl
      · exact Refuses.bind (refuses_ident h)
      · exact Refuses.bind (refuses_parens hparen)

theorem typeExprAt_reads (n : Nat) (t : TypeExpr) (h : t.print.length < n) :
    Reads (typeExprAt n) t.print (fun u => u.erase = t.erase) rest := by
  induction n generalizing t rest with
  | zero => simp at h
  | succ n ih =>
      refine reads_spanned ?_
      cases t with
      | name s x =>
          refine .choice ((reads_ident x).map fun y hy s' => ?_)
          simp only [TypeExpr.erase, hy]
      | tuple s es =>
          rw [TypeExpr.print, TypeExpr.printAll_eq_map] at h ⊢
          have hlist : Reads (separatedTrailing (typeExprAt n) comma)
              (commas (es.map TypeExpr.print))
              (fun us => us.map TypeExpr.erase = es.map TypeExpr.erase)
              (.punct .rparen :: rest) :=
            reads_separatedTrailing es (by simp) (typeExprAt_refuses n (by simp) (by simp))
              fun e he _ _ _ => ih e (length_lt_inParens h he)
          refine Refuses.choice (Refuses.bind (refuses_ident (by simp [inParens])))
            (.choice ((reads_parens hlist).map fun us hus s' => ?_))
          simp only [TypeExpr.erase, TypeExpr.eraseAll_eq_map, hus]

theorem typeExpr_reads (t : TypeExpr) :
    Reads typeExpr t.print (fun u => u.erase = t.erase) rest := by
  intro pos r
  refine typeExprAt_reads _ t ?_ pos r
  simp only [List.length_append]
  omega

theorem patternAt_refuses (n : Nat) (h : ∀ t ∈ ts.head?, ∀ x, t ≠ .ident x)
    (hwild : ∀ t ∈ ts.head?, t ≠ .keyword .kwUnderscore)
    (hparen : ∀ t ∈ ts.head?, t ≠ .punct .lparen) : Refuses (patternAt n) ts := by
  cases n with
  | zero => exact refuses_fail ts
  | succ n =>
      refine refuses_spanned (refuses_choice ?_)
      intro p hp
      simp only [List.mem_cons, List.not_mem_nil, or_false] at hp
      rcases hp with rfl | rfl | rfl
      · exact Refuses.bind (refuses_ident h)
      · exact Refuses.bind (refuses_keyword hwild)
      · exact Refuses.bind (refuses_parens hparen)

theorem patternAt_reads (n : Nat) (p : Pattern) (h : p.print.length < n) :
    Reads (patternAt n) p.print (fun q => q.erase = p.erase) rest := by
  induction n generalizing p rest with
  | zero => simp at h
  | succ n ih =>
      refine reads_spanned ?_
      cases p with
      | name s x =>
          refine .choice ((reads_ident x).map fun y hy s' => ?_)
          simp only [Pattern.erase, hy]
      | wildcard s =>
          refine Refuses.choice (Refuses.bind (refuses_ident (by simp [Pattern.print])))
            (.choice ((reads_keyword .kwUnderscore).map fun _ _ s' => ?_))
          simp only [Pattern.erase]
      | tuple s es =>
          rw [Pattern.print, Pattern.printAll_eq_map] at h ⊢
          have hlist : Reads (separatedTrailing (patternAt n) comma)
              (commas (es.map Pattern.print))
              (fun us => us.map Pattern.erase = es.map Pattern.erase)
              (.punct .rparen :: rest) :=
            reads_separatedTrailing es (by simp)
              (patternAt_refuses n (by simp) (by simp) (by simp))
              fun e he _ _ _ => ih e (length_lt_inParens h he)
          refine Refuses.choice (Refuses.bind (refuses_ident (by simp [inParens])))
            (Refuses.choice (Refuses.bind (refuses_keyword (by simp [inParens])))
              (.choice ((reads_parens hlist).map fun us hus s' => ?_)))
          simp only [Pattern.erase, Pattern.eraseAll_eq_map, hus]

theorem pattern_reads (p : Pattern) :
    Reads pattern p.print (fun q => q.erase = p.erase) rest := by
  intro pos r
  refine patternAt_reads _ p ?_ pos r
  simp only [List.length_append]
  omega

end LanguageService.Surface
