import LanguageService.Proofs.PrintedExpr

namespace LanguageService.Surface

open Surface.Parser

variable {rest : List Token}

theorem terminated_reads {α : Type} {p : Parser α} {ts : List Token} {good : α → Prop}
    (h : Reads p ts good (.punct .semi :: rest)) :
    Reads (terminated p) (ts ++ [.punct .semi]) good rest := by
  have hsemi : Reads (optional (punct .semi)) [.punct .semi] (fun _ => True) rest :=
    reads_optional (reads_punct .semi) fun _ _ => trivial
  exact Reads.bind h fun a ha => hsemi.map fun _ _ => ha

section Items

variable {α γ ι : Type} {p : Parser α} {print : ι → List Token} {view : α → γ} {key : ι → γ}

theorem items_reads (xs : List ι) (hrest : Refuses p rest)
    (hxs : ∀ x ∈ xs, ∀ us,
      Reads p (print x) (fun a => view a = key x) (.punct .semi :: us)) :
    Reads (many (terminated p)) (xs.flatMap fun x => print x ++ [.punct .semi])
      (fun as => as.map view = xs.map key) rest :=
  reads_many xs hrest.bind (by simp) fun x _ hx =>
    terminated_reads (hxs x (hx.subset (by simp)) _)

theorem block_items_reads (xs : List ι) (hrest : Refuses p (.punct .rbrace :: rest))
    (hxs : ∀ x ∈ xs, ∀ us,
      Reads p (print x) (fun a => view a = key x) (.punct .semi :: us)) :
    Reads (braces (many (terminated p)))
      (inBraces (xs.flatMap fun x => print x ++ [.punct .semi]))
      (fun as => as.map view = xs.map key) rest :=
  reads_braces (items_reads xs hrest hxs)

end Items

theorem ascription_reads (t : TypeExpr) :
    Reads ascription (printAscription t) (fun u => u.erase = t.erase) rest :=
  Reads.bind (reads_punct .colon) fun _ _ => typeExpr_reads t

theorem optional_ascription_reads (t : Option TypeExpr)
    (hrest : ∀ u ∈ rest.head?, u ≠ .punct .colon) :
    Reads (optional ascription) (printOptional printAscription t)
      (fun u => u.map TypeExpr.erase = t.map TypeExpr.erase) rest :=
  optional_reads t (Refuses.bind (refuses_punct hrest)) fun u _ => ascription_reads u

theorem assigned_reads (e : Expr) (hwf : e.wellFormed = true)
    (hrest : Follows precedence.length rest) :
    Reads assigned (printAssigned e) (fun e' => e'.erase = e.erase) rest :=
  Reads.bind (reads_punct .assign) fun _ _ => expr_reads e hwf hrest

theorem assigned_refuses {t : Token} (h : t ≠ .punct .assign) : Refuses assigned (t :: rest) :=
  Refuses.bind (refuses_punct (by simpa using h))

theorem of_all_some {α : Type} {p : α → Bool} {a : Option α} {b : α} (h : a.all p = true)
    (hb : a = some b) : p b = true := by
  rwa [hb] at h

theorem introducer_reads (i : Introducer) :
    Reads introducer [Introducer.print i] (fun p => p.1 = i) rest :=
  reads_token fun s => ⟨(i, s), by cases i <;> rfl, rfl⟩

theorem introducer_refuses {t : Token} (h : ∀ i, t ≠ Introducer.print i) :
    Refuses introducer (t :: rest) := by
  refine refuses_token fun u hu s => ?_
  obtain rfl : t = u := by simpa using hu
  cases t with
  | keyword k =>
      cases k with
      | kwLet => exact absurd rfl (h .byLet)
      | kwVar => exact absurd rfl (h .byVar)
      | kwInout => exact absurd rfl (h .byInout)
      | kwSink => exact absurd rfl (h .bySink)
      | _ => rfl
  | _ => rfl

theorem binding_reads (b : Binding) (hwf : b.wellFormed = true) :
    Reads binding b.print (fun b' => b'.erase = b.erase) (.punct .semi :: rest) := by
  simp only [Binding.wellFormed, Bool.and_eq_true] at hwf
  have hcolon : ∀ u ∈ (printOptional printAssigned b.initializer ++
      .punct .semi :: rest).head?,
      u ≠ .punct .colon := by
    cases b.initializer <;> simp [printOptional, printAssigned]
  refine Reads.bind (introducer_reads b.introducer) fun ⟨i, s⟩ hi => ?_
  refine Reads.bind (pattern_reads b.pattern) fun p hp => ?_
  refine Reads.bind (optional_ascription_reads b.ascription hcolon) fun t ht => ?_
  refine (optional_reads b.initializer (assigned_refuses (by simp)) fun e he =>
    assigned_reads e (of_all_some hwf.2 he) (follows_cons rfl _)).map fun e he => ?_
  change i = b.introducer at hi
  simp only [Binding.erase, hi, hp, ht, he]

def ReadsBlocks (block : Parser Stmt) (n : Nat) : Prop :=
  ∀ b : Stmt, b.isBody = true → b.print.length < n → ∀ rest,
    Reads block b.print (fun b' => b'.erase = b.erase) rest

theorem Stmt.print_of_isBrace {b : Stmt} (h : b.isBrace = true) :
    ∃ ts, b.print = .punct .lbrace :: ts := by
  cases b with
  | brace s ss => exact ⟨_, rfl⟩
  | _ => simp [Stmt.isBrace] at h

theorem Stmt.isBody_of_isBrace {b : Stmt} (h : b.isBrace = true) (hwf : b.wellFormed = true) :
    b.isBody = true := by
  rw [Stmt.isBody, h, hwf]
  rfl

theorem follows_block {b : Stmt} (h : b.isBrace = true) :
    Follows precedence.length (b.print ++ rest) := by
  obtain ⟨ts, hts⟩ := b.print_of_isBrace h
  rw [hts]
  exact follows_cons rfl _

theorem blockOf_refuses {inner : Parser Stmt} {ts : List Token}
    (h : ∀ t ∈ ts.head?, t ≠ .punct .lbrace) : Refuses (blockOf inner) ts :=
  refuses_spanned (Refuses.bind (refuses_braces h))

theorem no_else_reads {branch : Parser Stmt} :
    Reads (optional (do let k ← keyword .kwElse; return (k, ← branch))) []
      (fun f => f = none) (.punct .semi :: rest) :=
  reads_optional_none (Refuses.bind (refuses_keyword (by simp))) rfl

theorem else_reads {branch : Parser Stmt} {no : Stmt}
    (h : Reads branch no.print (fun s => s.erase = no.erase) rest) :
    Reads (optional (do let k ← keyword .kwElse; return (k, ← branch)))
      ([.keyword .kwElse] ++ no.print)
      (fun f => ∃ k s, f = some (k, s) ∧ s.erase = no.erase) rest := by
  have hpair : Reads (do let k ← keyword .kwElse; return (k, ← branch))
      ([.keyword .kwElse] ++ no.print) (fun f => f.2.erase = no.erase) rest :=
    Reads.bind (reads_keyword .kwElse) fun _ _ => h.map fun _ hs => hs
  exact reads_optional hpair fun f hf => ⟨f.1, f.2, rfl, hf⟩

theorem Stmt.print_of_isCond {c : Stmt} (h : c.isCond = true) :
    ∃ ts, c.print = .keyword .kwIf :: ts := by
  match c, h with
  | .cond _ _ _ _ none, _ => exact ⟨_, rfl⟩
  | .cond _ _ _ _ (some (_, _)), _ => exact ⟨_, rfl⟩

section Conditional

variable {inner : Parser Stmt} {n : Nat} (hblock : ReadsBlocks (blockOf inner) n)

include hblock in
theorem conditionalAt_reads (m : Nat) (c : Stmt) (hcond : c.isCond = true)
    (hwf : c.wellFormed = true) (hm : c.print.length < m) (hn : c.print.length ≤ n) :
    Reads (conditionalAt (blockOf inner) m) c.print (fun c' => c'.erase = c.erase)
      (.punct .semi :: rest) := by
  induction m generalizing c with
  | zero => simp at hm
  | succ m ih =>
      match c with
      | .cond s k e yes none =>
          simp only [Stmt.wellFormed, Bool.and_eq_true] at hwf
          obtain ⟨⟨he, hbrace⟩, hyes⟩ := hwf
          have htokens : (Stmt.cond s k e yes none).print =
              [.keyword .kwIf] ++ (e.print ++ (yes.print ++ [])) := by
            simp [Stmt.print]
          have hyeslen : yes.print.length < n := by
            simp only [htokens, List.length_append, List.length_cons] at hn
            omega
          rw [htokens]
          refine reads_spanned (Reads.bind (reads_keyword .kwIf) fun k' _ => ?_)
          refine Reads.bind (expr_reads e he (by simpa using follows_block hbrace)) fun e' he' => ?_
          refine Reads.bind (hblock yes (Stmt.isBody_of_isBrace hbrace hyes) hyeslen _)
            fun yes' hyes' => ?_
          refine no_else_reads.map fun no' hno' s' => ?_
          rw [hno', Stmt.erase, he', hyes', Stmt.erase]
      | .cond s k e yes (some (k₂, no)) =>
          simp only [Stmt.wellFormed, Bool.and_eq_true, Bool.or_eq_true] at hwf
          obtain ⟨⟨⟨⟨he, hbrace⟩, hyes⟩, hkind⟩, hno⟩ := hwf
          have htokens : (Stmt.cond s k e yes (some (k₂, no))).print =
              [.keyword .kwIf] ++ (e.print ++ (yes.print ++ ([.keyword .kwElse] ++ no.print))) := by
            simp [Stmt.print]
          have hlen : yes.print.length + no.print.length < n ∧ no.print.length < m := by
            simp only [htokens, List.length_append, List.length_cons] at hn hm
            omega
          have helse : Reads (orElse (blockOf inner) (conditionalAt (blockOf inner) m)) no.print
              (fun s' => s'.erase = no.erase) (.punct .semi :: rest) := by
            rcases hkind with hkind | hkind
            · exact (hblock no (Stmt.isBody_of_isBrace hkind hno) (by omega) _).orElse
            · refine Refuses.orElse (blockOf_refuses ?_)
                (ih no hkind hno hlen.2 (by omega))
              obtain ⟨ts, hts⟩ := no.print_of_isCond hkind
              simp [hts]
          rw [htokens]
          refine reads_spanned (Reads.bind (reads_keyword .kwIf) fun k' _ => ?_)
          refine Reads.bind (expr_reads e he (by simpa using follows_block hbrace)) fun e' he' => ?_
          refine Reads.bind (hblock yes (Stmt.isBody_of_isBrace hbrace hyes) (by omega) _)
            fun yes' hyes' => ?_
          refine (else_reads helse).map fun f hf s' => ?_
          obtain ⟨k₃, no', rfl, hno'⟩ := hf
          rw [Stmt.erase, he', hyes', hno', Stmt.erase]
      | .brace _ _ => simp [Stmt.isCond] at hcond
      | .ret _ _ _ => simp [Stmt.isCond] at hcond
      | .loop _ _ _ _ => simp [Stmt.isCond] at hcond
      | .assign _ _ _ => simp [Stmt.isCond] at hcond
      | .expr _ _ => simp [Stmt.isCond] at hcond
      | .binding _ _ => simp [Stmt.isCond] at hcond

theorem Starts.head_ne {ts : List Token} {u : Token} (h : Starts ts)
    (hu : startsExpr u = false) : ∀ t ∈ ts.head?, t ≠ u := by
  obtain ⟨t, us, rfl, hstart, -⟩ := h
  intro t' ht' heq
  obtain rfl : t = t' := by simpa using ht'
  rw [heq, hu] at hstart
  exact absurd hstart (by simp)

theorem Starts.refuses_keyword {k : Keyword} {ts : List Token} (h : Starts ts)
    (hk : startsExpr (.keyword k) = false) : Refuses (keyword k) ts :=
  Surface.refuses_keyword (h.head_ne hk)

theorem Starts.refuses_binding {ts : List Token} (h : Starts ts) : Refuses binding ts := by
  obtain ⟨t, us, rfl, hstart, -⟩ := h
  refine Refuses.bind (introducer_refuses fun i heq => ?_)
  rw [heq] at hstart
  cases i <;> simp [Introducer.print, startsExpr] at hstart

theorem assignment_reads (l r : Expr) (hl : l.wellFormed = true) (hr : r.wellFormed = true)
    (s : Span) :
    Reads (do
        let lhs ← expr
        match ← optional assigned with
        | some rhs => return fun s => Stmt.assign s lhs rhs
        | none => return fun s => Stmt.expr s lhs) (l.print ++ printAssigned r)
      (fun f => ∀ s', (f s').erase = (Stmt.assign s l r).erase) (.punct .semi :: rest) := by
  have hassigned : Reads (optional assigned) (printAssigned r)
      (fun v => ∃ r', v = some r' ∧ r'.erase = r.erase) (.punct .semi :: rest) :=
    reads_optional (assigned_reads r hr (follows_cons rfl _)) fun r' h => ⟨r', rfl, h⟩
  refine Reads.bind (expr_reads l hl (follows_cons rfl _)) fun l' hl' => ?_
  rw [← List.append_nil (printAssigned r)]
  refine Reads.bind hassigned fun v hv => ?_
  obtain ⟨r', rfl, hr'⟩ := hv
  refine reads_pure fun s' => ?_
  rw [Stmt.erase, hl', hr', Stmt.erase]

theorem expression_reads (e : Expr) (he : e.wellFormed = true) (s : Span) :
    Reads (do
        let lhs ← expr
        match ← optional assigned with
        | some rhs => return fun s => Stmt.assign s lhs rhs
        | none => return fun s => Stmt.expr s lhs) e.print
      (fun f => ∀ s', (f s').erase = (Stmt.expr s e).erase) (.punct .semi :: rest) := by
  have hnone : Reads (optional assigned) [] (fun v => v = none) (.punct .semi :: rest) :=
    reads_optional_none (assigned_refuses (by simp)) rfl
  rw [← List.append_nil e.print]
  refine Reads.bind (expr_reads e he (follows_cons rfl _)) fun e' he' => ?_
  change Reads _ ([] ++ []) _ _
  refine Reads.bind hnone fun v hv => ?_
  subst hv
  refine reads_pure fun s' => ?_
  rw [Stmt.erase, he', Stmt.erase]

include hblock in
theorem simpleStmt_reads (s : Stmt) (hbrace : s.isBrace = false) (hcond : s.isCond = false)
    (hwf : s.wellFormed = true) (hn : s.print.length ≤ n) :
    Reads (simpleStmt (blockOf inner)) s.print (fun s' => s'.erase = s.erase)
      (.punct .semi :: rest) := by
  refine reads_spanned ?_
  match s with
  | .brace _ _ => simp [Stmt.isBrace] at hbrace
  | .cond _ _ _ _ _ => simp [Stmt.isCond] at hcond
  | .ret s k v =>
      refine .choice (Reads.bind (reads_keyword .kwReturn) fun k' _ =>
        (optional_reads v (expr_refuses _ (by simp [startsExpr])) fun e he =>
          expr_reads e (of_all_some hwf he) (follows_cons rfl _)).map fun v' hv s' => ?_)
      rw [Stmt.erase, hv, Stmt.erase]
  | .loop s k e b =>
      simp only [Stmt.wellFormed, Bool.and_eq_true] at hwf
      obtain ⟨⟨he, hb⟩, hbwf⟩ := hwf
      simp only [Stmt.print, List.length_cons, List.length_append] at hn
      refine Refuses.choice (Refuses.bind (refuses_keyword (by simp [Stmt.print]))) (.choice ?_)
      refine Reads.bind (reads_keyword .kwWhile) fun k' _ => ?_
      refine Reads.bind (expr_reads e he (follows_block hb)) fun e' he' => ?_
      refine (hblock b (Stmt.isBody_of_isBrace hb hbwf) (by omega) _).map fun b' hb' s' => ?_
      rw [Stmt.erase, he', hb', Stmt.erase]
  | .binding s b =>
      have hreturn : Refuses (keyword .kwReturn) (b.print ++ .punct .semi :: rest) :=
        refuses_keyword (by cases h : b.introducer <;> simp [Binding.print, h, Introducer.print])
      have hwhile : Refuses (keyword .kwWhile) (b.print ++ .punct .semi :: rest) :=
        refuses_keyword (by cases h : b.introducer <;> simp [Binding.print, h, Introducer.print])
      refine Refuses.choice hreturn.bind (Refuses.choice hwhile.bind
        (.choice ((binding_reads b hwf).map fun b' hb s' => ?_)))
      rw [Stmt.erase, hb, Stmt.erase]
  | .assign s l r =>
      simp only [Stmt.wellFormed, Bool.and_eq_true] at hwf
      have hstart : Starts ((Stmt.assign s l r).print ++ .punct .semi :: rest) := by
        rw [Stmt.print, List.append_assoc]
        exact l.starts_print _ (by simp)
      exact Refuses.choice (hstart.refuses_keyword rfl).bind
        (Refuses.choice (hstart.refuses_keyword rfl).bind
          (Refuses.choice hstart.refuses_binding.bind
            (.choice (assignment_reads l r hwf.1 hwf.2 s))))
  | .expr s e =>
      have hstart : Starts ((Stmt.expr s e).print ++ .punct .semi :: rest) :=
        e.starts_print _ (by simp)
      exact Refuses.choice (hstart.refuses_keyword rfl).bind
        (Refuses.choice (hstart.refuses_keyword rfl).bind
          (Refuses.choice hstart.refuses_binding.bind
            (.choice (expression_reads e hwf s))))

end Conditional

theorem expr_refuses_cons {t : Token} (ht : startsExpr t = false) : Refuses expr (t :: rest) :=
  expr_refuses _ (by simpa using ht)

theorem stmtAt_refuses (n : Nat) : Refuses (stmtAt n) (.punct .rbrace :: rest) := by
  cases n with
  | zero => exact refuses_fail _
  | succ n =>
      have hsimple : Refuses (simpleStmt (blockOf (stmtAt n))) (.punct .rbrace :: rest) := by
        refine refuses_spanned (refuses_choice ?_)
        intro p hp
        simp only [List.mem_cons, List.not_mem_nil, or_false] at hp
        rcases hp with rfl | rfl | rfl | rfl
        · exact Refuses.bind (refuses_keyword (by simp))
        · exact Refuses.bind (refuses_keyword (by simp))
        · exact Refuses.bind (Refuses.bind (introducer_refuses (by rintro ⟨⟩ ⟨⟩)))
        · exact Refuses.bind (expr_refuses_cons rfl)
      have hcond (m : Nat) : Refuses (conditionalAt (blockOf (stmtAt n)) m)
          (.punct .rbrace :: rest) := by
        cases m with
        | zero => exact refuses_fail _
        | succ m => exact refuses_spanned (Refuses.bind (refuses_keyword (by simp)))
      exact refuses_orElse (blockOf_refuses (by simp)) (refuses_orElse
        (fun pos r => hcond _ pos r) (refuses_orElse hsimple (refuses_fail _)))

theorem blockOf_reads {inner : Parser Stmt} (ss : List Stmt) (s : Span)
    (hrefuses : ∀ rest, Refuses inner (.punct .rbrace :: rest))
    (hss : ∀ x ∈ ss, ∀ us, Reads inner x.print (fun y => y.erase = x.erase) (.punct .semi :: us)) :
    Reads (blockOf inner) (Stmt.brace s ss).print (fun b => b.erase = (Stmt.brace s ss).erase)
      rest := by
  rw [Stmt.print, Stmt.printAll_eq_flatMap]
  refine reads_spanned ((block_items_reads ss (hrefuses rest) hss).map fun xs hxs s' => ?_)
  rw [Stmt.erase, Stmt.eraseAll_eq_map, hxs, Stmt.erase, Stmt.eraseAll_eq_map]

theorem Stmt.length_lt_print {ss : List Stmt} {s : Span} {x : Stmt} (hx : x ∈ ss) :
    x.print.length + 2 < (Stmt.brace s ss).print.length := by
  have hle := length_le_flatMap_of_mem (fun y : Stmt => y.print ++ [.punct .semi]) hx
  rw [Stmt.print, Stmt.printAll_eq_flatMap, inBraces]
  simp only [List.length_append, List.length_cons, List.length_nil] at hle ⊢
  omega

def Stmt.word : Stmt → Option Token
  | .brace _ _ => some (.punct .lbrace)
  | .ret _ _ _ => some (.keyword .kwReturn)
  | .loop _ _ _ _ => some (.keyword .kwWhile)
  | .cond _ _ _ _ _ => some (.keyword .kwIf)
  | .assign _ _ _ => none
  | .expr _ _ => none
  | .binding _ b => some (Introducer.print b.introducer)

theorem Stmt.print_head_ne {s : Stmt} {u : Token} (hu : startsExpr u = false)
    (hword : s.word ≠ some u) :
    ∀ t ∈ (s.print ++ .punct .semi :: rest).head?, t ≠ u := by
  match s with
  | .brace _ _ => simpa [Stmt.print, inBraces, Stmt.word] using hword
  | .ret _ _ _ => simpa [Stmt.print, Stmt.word] using hword
  | .loop _ _ _ _ => simpa [Stmt.print, Stmt.word] using hword
  | .cond _ _ _ _ none => simpa [Stmt.print, Stmt.word] using hword
  | .cond _ _ _ _ (some (_, _)) => simpa [Stmt.print, Stmt.word] using hword
  | .assign _ l r =>
      rw [Stmt.print, List.append_assoc]
      exact (l.starts_print _ (by simp)).head_ne hu
  | .expr _ e => exact (e.starts_print _ (by simp)).head_ne hu
  | .binding _ b => simpa [Stmt.print, Binding.print, Stmt.word] using hword

theorem Stmt.word_ne_lbrace {s : Stmt} (h : s.isBrace = false) :
    s.word ≠ some (.punct .lbrace) := by
  cases s with
  | brace s ss => simp [Stmt.isBrace] at h
  | binding s b => cases hi : b.introducer <;> simp [Stmt.word, hi, Introducer.print]
  | _ => simp [Stmt.word]

theorem Stmt.word_ne_if {s : Stmt} (h : s.isCond = false) :
    s.word ≠ some (.keyword .kwIf) := by
  cases s with
  | cond s k e yes no => simp [Stmt.isCond] at h
  | binding s b => cases hi : b.introducer <;> simp [Stmt.word, hi, Introducer.print]
  | _ => simp [Stmt.word]

theorem conditionalAt_refuses {block : Parser Stmt} {s : Stmt} (h : s.isCond = false) (n : Nat) :
    Refuses (conditionalAt block n) (s.print ++ .punct .semi :: rest) := by
  cases n with
  | zero => exact refuses_fail _
  | succ n =>
      exact refuses_spanned (Refuses.bind (refuses_keyword (Stmt.print_head_ne rfl
        (Stmt.word_ne_if h))))

theorem stmtAt_reads (n : Nat) (s : Stmt) (hwf : s.wellFormed = true) (hlen : s.print.length < n) :
    Reads (stmtAt n) s.print (fun s' => s'.erase = s.erase) (.punct .semi :: rest) := by
  induction n generalizing s rest with
  | zero => simp at hlen
  | succ n ih =>
      have hblock : ReadsBlocks (blockOf (stmtAt n)) (n + 1) := by
        intro b hb hblen us
        rw [Stmt.isBody, Bool.and_eq_true] at hb
        match b with
        | .brace s ss =>
            have hall := hb.2
            rw [Stmt.wellFormed, Stmt.allWellFormed_eq_all, List.all_eq_true] at hall
            refine blockOf_reads ss s (fun _ => stmtAt_refuses n) fun x hx _ => ih x (hall x hx) ?_
            have := Stmt.length_lt_print (s := s) hx
            omega
      by_cases hbrace : s.isBrace = true
      · exact .choice (hblock s (Stmt.isBody_of_isBrace hbrace hwf) hlen _)
      rw [Bool.not_eq_true] at hbrace
      have hword := Stmt.word_ne_lbrace hbrace
      refine Refuses.choice (blockOf_refuses (Stmt.print_head_ne rfl hword)) ?_
      by_cases hcond : s.isCond = true
      · refine .choice fun pos r =>
          conditionalAt_reads hblock _ s hcond hwf ?_ (Nat.le_of_lt hlen) pos r
        simp only [List.length_append]
        omega
      rw [Bool.not_eq_true] at hcond
      refine Refuses.choice (fun pos r => conditionalAt_refuses hcond _ pos r) ?_
      exact .choice (simpleStmt_reads hblock s hbrace hcond hwf (Nat.le_of_lt hlen))

theorem stmt_reads (s : Stmt) (hwf : s.wellFormed = true) :
    Reads stmt s.print (fun s' => s'.erase = s.erase) (.punct .semi :: rest) := by
  intro pos r
  refine stmtAt_reads _ s hwf ?_ pos r
  simp only [List.length_append]
  omega

theorem block_reads (b : Stmt) (hb : b.isBody = true) :
    Reads block b.print (fun b' => b'.erase = b.erase) rest := by
  rw [Stmt.isBody, Bool.and_eq_true] at hb
  match b with
  | .brace s ss =>
      have hall := hb.2
      rw [Stmt.wellFormed, Stmt.allWellFormed_eq_all, List.all_eq_true] at hall
      exact blockOf_reads ss s (fun _ pos r => stmtAt_refuses _ pos r)
        fun x hx _ => stmt_reads x (hall x hx)

end LanguageService.Surface
