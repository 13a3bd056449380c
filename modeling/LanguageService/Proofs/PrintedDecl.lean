import LanguageService.Proofs.PrintedStmt

namespace LanguageService.Surface

open Surface.Parser

variable {rest : List Token}

theorem generics_reads (gs : List Name) (hrest : ∀ t ∈ rest.head?, t ≠ .op "<") :
    Reads generics (printGenerics gs) (fun xs => xs.map Name.erase = gs.map Name.erase) rest := by
  cases gs with
  | nil =>
      refine Reads.map (reads_optional_none (Refuses.bind (refuses_operatorIn ?_)) rfl)
        fun xs hxs => by rw [← hxs]; rfl
      intro t ht x hx
      have hne := hrest t ht
      simp_all
  | cons g gs =>
      have hlist : Reads (separated1 ident comma)
          (commas ((g :: gs).map fun x => [.ident x.text]))
          (fun xs => xs.map Name.erase = (g :: gs).map Name.erase) (.op ">" :: rest) :=
        reads_separated1 g gs (by simp) fun y _ _ _ _ => reads_ident y
      have hclose (xs : List Name) (hxs : xs.map Name.erase = (g :: gs).map Name.erase) :
          Reads (do let _ ← operatorIn [">"]; return xs) [.op ">"]
            (fun xs => xs.map Name.erase = (g :: gs).map Name.erase) rest :=
        (reads_operatorIn ⟨">", .zero⟩ (by decide)).map fun _ _ => hxs
      refine Reads.map (reads_optional (Reads.bind (reads_operatorIn ⟨"<", .zero⟩ (by decide))
        fun _ _ => Reads.bind hlist hclose) fun xs hxs => ?_) fun o ho => ho
      exact hxs

theorem param_reads (p : Param) (hrest : ∀ t ∈ rest.head?, t ≠ .punct .colon) :
    Reads param p.print (fun q => q.erase = p.erase) rest := by
  refine Reads.bind (reads_ident p.name) fun x hx =>
    (optional_ascription_reads p.ascription hrest).map fun t ht => ?_
  simp only [Param.erase, hx, ht]

theorem params_reads (ps : List Param) :
    Reads params (printParams ps) (fun qs => qs.map Param.erase = ps.map Param.erase) rest := by
  refine reads_parens (reads_separatedTrailing ps (by simp)
    (Refuses.bind (refuses_ident (by simp))) ?_)
  intro p _ t ht us
  refine param_reads p ?_
  rcases ht with rfl | rfl <;> simp

theorem effect_reads (e : Effect) : Reads effect [Effect.print e] (fun p => p.1 = e) rest :=
  reads_token fun s => ⟨(e, s), by cases e <;> rfl, rfl⟩

theorem effect_refuses {ts : List Token} (h : ∀ t ∈ ts.head?, ∀ e, t ≠ Effect.print e) :
    Refuses effect ts := by
  refine refuses_token fun t ht s => ?_
  cases t with
  | keyword k =>
      cases k with
      | kwLet => exact absurd rfl (h _ ht .onLet)
      | kwInout => exact absurd rfl (h _ ht .onInout)
      | kwSet => exact absurd rfl (h _ ht .onSet)
      | kwSink => exact absurd rfl (h _ ht .onSink)
      | _ => rfl
  | _ => rfl

theorem variant_reads (v : Variant) (hb : v.body.isBody = true) :
    Reads variant v.print (fun w => w.erase = v.erase) rest := by
  refine reads_spanned (Reads.bind (effect_reads v.effect) fun ⟨e, es⟩ he =>
    (block_reads v.body hb).map fun b hb' s => ?_)
  change e = v.effect at he
  simp only [Variant.erase, he, hb']

theorem Pattern.print_head (p : Pattern) :
    ∀ t ∈ (p.print ++ rest).head?, t ≠ .punct .lbrace := by
  cases p <;> simp [Pattern.print, inParens]

theorem variant_refuses {ss : List Stmt} :
    Refuses variant (Stmt.printAll ss ++ .punct .rbrace :: rest) := by
  refine refuses_spanned ?_
  cases ss with
  | nil =>
      exact Refuses.bind (effect_refuses (by rintro t ⟨⟩ ⟨⟩ ⟨⟩))
  | cons x ss =>
      rw [Stmt.printAll, List.append_assoc]
      have hother (h : ∀ f, x.word ≠ some (Effect.print f)) : Refuses effect
          (x.print ++ .punct .semi :: (Stmt.printAll ss ++ .punct .rbrace :: rest)) :=
        effect_refuses fun t ht f =>
          Stmt.print_head_ne (by cases f <;> rfl) (h f) t ht
      cases x with
      | binding s b =>
          have hblock (us : List Token) : Refuses block (b.pattern.print ++ us) :=
            blockOf_refuses b.pattern.print_head
          rw [Stmt.print, Binding.print, List.cons_append, List.append_assoc]
          cases b.introducer with
          | byVar => exact Refuses.bind (effect_refuses (by rintro t ⟨⟩ ⟨⟩ ⟨⟩))
          | byLet => exact (effect_reads .onLet).refuses fun _ => Refuses.bind (hblock _)
          | byInout => exact (effect_reads .onInout).refuses fun _ => Refuses.bind (hblock _)
          | bySink => exact (effect_reads .onSink).refuses fun _ => Refuses.bind (hblock _)
      | _ => exact Refuses.bind (hother (by rintro ⟨⟩ ⟨⟩))

theorem funBody_reads (b : Body) (hwf : b.wellFormed = true) :
    Reads funBody b.print (fun b' => b'.erase = b.erase) rest := by
  cases b with
  | bundle vs =>
      simp only [Body.wellFormed, Bool.and_eq_true, List.all_eq_true] at hwf
      obtain ⟨hne, hall⟩ := hwf
      have hrest : Refuses variant (.punct .rbrace :: rest) :=
        refuses_spanned (Refuses.bind (effect_refuses (by rintro t ⟨⟩ ⟨⟩ ⟨⟩)))
      cases vs with
      | nil => simp at hne
      | cons v vs =>
          have hmany : Reads (many variant) (vs.flatMap Variant.print)
              (fun ws => ws.map Variant.erase = vs.map Variant.erase)
              (.punct .rbrace :: rest) :=
            reads_many vs hrest (by simp [Variant.print]) fun w ws hw =>
              variant_reads w (hall w (List.mem_cons_of_mem v (hw.subset (by simp))))
          have hmany1 : Reads (many1 variant) ((v :: vs).flatMap Variant.print)
              (fun ws => ws.map Variant.erase = (v :: vs).map Variant.erase)
              (.punct .rbrace :: rest) := by
            rw [List.flatMap_cons]
            refine Reads.bind (variant_reads v (hall v (by simp))) fun w hw =>
              hmany.map fun ws hws => ?_
            rw [List.map_cons, hw, hws, List.map_cons]
          refine Reads.orElse ((reads_braces hmany1).map fun ws hws => ?_)
          rw [Body.erase, hws, Body.erase]
  | block b =>
      have hbundle : Refuses (braces (many1 variant)) (b.print ++ rest) := by
        rw [Body.wellFormed, Stmt.isBody, Bool.and_eq_true] at hwf
        cases b with
        | brace s ss =>
            rw [Stmt.print, inBraces, List.cons_append, List.append_assoc]
            exact (reads_punct .lbrace).refuses fun _ =>
              Refuses.bind (Refuses.bind variant_refuses)
        | _ => simp [Stmt.isBrace] at hwf
      refine Refuses.orElse hbundle.bind ((block_reads b hwf).map fun b' hb => ?_)
      rw [Body.erase, hb, Body.erase]

theorem Body.print_head (b : Body) (hwf : b.wellFormed = true) :
    ∃ ts, b.print = .punct .lbrace :: ts := by
  cases b with
  | bundle vs => exact ⟨_, rfl⟩
  | block b =>
      rw [Body.wellFormed, Stmt.isBody, Bool.and_eq_true] at hwf
      exact b.print_of_isBrace hwf.1

theorem functionName_reads (x : Name) :
    Reads (orElse ident anyOperator) [printFunctionName x.text] (fun y => y.erase = x.erase)
      rest := by
  rw [printFunctionName]
  split
  · exact Refuses.orElse (refuses_ident (by simp)) (reads_anyOperator x)
  · exact (reads_ident x).orElse

theorem output_reads (t : Option TypeExpr) (hrest : ∀ u ∈ rest.head?, u ≠ .punct .arrow) :
    Reads (optional (do punct .arrow; typeExpr)) (printOptional printOutput t)
      (fun u => u.map TypeExpr.erase = t.map TypeExpr.erase) rest :=
  optional_reads t (Refuses.bind (refuses_punct hrest)) fun u _ =>
    Reads.bind (reads_punct .arrow) fun _ _ => typeExpr_reads u

theorem optional_block_reads (b : Option Stmt) (hwf : b.all Stmt.isBody = true) :
    Reads (optional block) (printOptional Stmt.print b)
      (fun b' => b'.map Stmt.erase = b.map Stmt.erase) (.punct .semi :: rest) :=
  optional_reads b (blockOf_refuses (by simp)) fun c hc => block_reads c (of_all_some hwf hc)

def ReadsDecl (p : Parser (Span → Decl)) (d : Decl) : Prop :=
  ∀ rest, Reads p d.print (fun f => ∀ s, (f s).erase = d.erase) (.punct .semi :: rest)

theorem function_reads {s k : Span} {x : Name} {gs : List Name} {ps : List Param}
    {t : Option TypeExpr} {b : Option Body} (hb : b.all Body.wellFormed = true) :
    ReadsDecl function (.function s k x gs ps t b) := by
  intro rest
  have harrow : ∀ u ∈ (printOptional Body.print b ++ .punct .semi :: rest).head?,
      u ≠ .punct .arrow := by
    cases b with
    | none => simp [printOptional]
    | some b =>
        obtain ⟨ts, hts⟩ := b.print_head hb
        simp [printOptional, hts]
  refine Reads.bind (reads_keyword .kwFun) fun k' _ => ?_
  refine Reads.bind (functionName_reads x) fun x' hx => ?_
  refine Reads.bind (generics_reads gs (by simp [printParams, inParens])) fun gs' hgs => ?_
  refine Reads.bind (params_reads ps) fun ps' hps => ?_
  refine Reads.bind (output_reads t harrow) fun t' ht => ?_
  refine (optional_reads b (refuses_orElse (Refuses.bind (refuses_braces (by simp)))
    (Refuses.bind (blockOf_refuses (by simp)))) fun c hc =>
    funBody_reads c (of_all_some hb hc)).map fun b' hb' s' => ?_
  simp only [Decl.erase, hx, hgs, hps, ht, hb']

theorem initializer_reads {s k : Span} {ps : List Param} {b : Option Stmt}
    (hb : b.all Stmt.isBody = true) : ReadsDecl initializer (.init s k ps b) := by
  intro rest
  refine Reads.bind (reads_keyword .kwInit) fun k' _ => ?_
  refine Reads.bind (params_reads ps) fun ps' hps => ?_
  refine (optional_block_reads b hb).map fun b' hb' s' => ?_
  simp only [Decl.erase, hps, hb']

theorem subscript_reads {s k : Span} {x : Option Name} {ps : List Param} {t : TypeExpr}
    {b : Option Stmt} (hb : b.all Stmt.isBody = true) :
    ReadsDecl subscript (.subscript s k x ps t b) := by
  intro rest
  refine Reads.bind (reads_keyword .kwSubscript) fun k' _ => ?_
  refine Reads.bind (optional_reads x (refuses_ident (by simp [printParams, inParens]))
    fun y _ => reads_ident y) fun x' hx => ?_
  refine Reads.bind (params_reads ps) fun ps' hps => ?_
  refine Reads.bind (ascription_reads t) fun t' ht => ?_
  refine (optional_block_reads b hb).map fun b' hb' s' => ?_
  simp only [Decl.erase, hx, hps, ht, hb']

theorem associatedType_reads {s k : Span} {x : Name} :
    ReadsDecl associatedType (.associated s k x) := by
  intro rest
  refine Reads.bind (reads_keyword .kwType) fun k' _ => (reads_ident x).map fun y hy s' => ?_
  rw [Decl.erase, hy, Decl.erase]

theorem requirement_reads (d : Decl) (hreq : d.isRequirement = true)
    (hwf : d.wellFormed = true) :
    Reads requirement d.print (fun d' => d'.erase = d.erase) (.punct .semi :: rest) := by
  refine reads_spanned ?_
  match d with
  | .associated _ _ _ => exact .choice (associatedType_reads rest)
  | .function _ _ _ _ _ _ _ =>
      simp only [Decl.wellFormed, Bool.and_eq_true] at hwf
      exact Refuses.choice (Refuses.bind (refuses_keyword (by simp [Decl.print])))
        (.choice (function_reads hwf.2 rest))
  | .init _ _ _ _ =>
      simp only [Decl.wellFormed, Bool.and_eq_true] at hwf
      exact Refuses.choice (Refuses.bind (refuses_keyword (by simp [Decl.print])))
        (Refuses.choice (Refuses.bind (refuses_keyword (by simp [Decl.print])))
          (.choice (initializer_reads hwf.2 rest)))
  | .subscript _ _ _ _ _ _ =>
      simp only [Decl.wellFormed, Bool.and_eq_true] at hwf
      exact Refuses.choice (Refuses.bind (refuses_keyword (by simp [Decl.print])))
        (Refuses.choice (Refuses.bind (refuses_keyword (by simp [Decl.print])))
          (Refuses.choice (Refuses.bind (refuses_keyword (by simp [Decl.print])))
            (.choice (subscript_reads hwf.2 rest))))

theorem requirement_refuses : Refuses requirement (.punct .rbrace :: rest) := by
  refine refuses_spanned (refuses_choice ?_)
  intro p hp
  simp only [List.mem_cons, List.not_mem_nil, or_false] at hp
  rcases hp with rfl | rfl | rfl | rfl <;> exact Refuses.bind (refuses_keyword (by simp))

theorem fixity_reads (f : Fixity) : Reads fixity [Fixity.print f] (fun p => p.1 = f) rest := by
  intro pos r
  cases f with
  | between => exact ⟨(.between, ⟨pos, pos + 1⟩), r, rfl, rfl⟩
  | before => exact ⟨(.before, ⟨pos, pos + 1⟩), r, rfl, rfl⟩
  | after => exact ⟨(.after, ⟨pos, pos + 1⟩), r, rfl, rfl⟩

theorem typealias_reads {s k : Span} {x : Name} {t : TypeExpr} :
    ReadsDecl typealias (.typeAlias s k x t) := by
  intro rest
  refine Reads.bind (reads_keyword .kwTypealias) fun k' _ => ?_
  refine Reads.bind (reads_ident x) fun x' hx => ?_
  refine Reads.bind (reads_punct .assign) fun _ _ => (typeExpr_reads t).map fun t' ht s' => ?_
  rw [Decl.erase, hx, ht, Decl.erase]

theorem operator_reads {s k fs : Span} {f : Fixity} {x : Name} :
    ReadsDecl operator (.operator s k f fs x) := by
  intro rest
  refine Reads.bind (reads_keyword .kwOperator) fun k' _ => ?_
  refine Reads.bind (fixity_reads f) fun ⟨f', fs'⟩ hf => ?_
  refine (reads_anyOperator x).map fun x' hx s' => ?_
  change f' = f at hf
  rw [Decl.erase, hf, hx, Decl.erase]

theorem trait_reads {s k : Span} {x : Name} {ms : List Decl}
    (hms : Decl.requirementsWellFormed ms = true) : ReadsDecl trait (.trait s k x ms) := by
  intro rest
  rw [Decl.requirementsWellFormed_eq_all, List.all_eq_true] at hms
  have hmembers : Reads (braces (many (terminated requirement))) (inBraces (Decl.printAll ms))
      (fun ds => ds.map Decl.erase = ms.map Decl.erase) (.punct .semi :: rest) := by
    rw [Decl.printAll_eq_flatMap]
    refine block_items_reads ms requirement_refuses fun d hd us => ?_
    have hd' := hms d hd
    rw [Bool.and_eq_true] at hd'
    exact requirement_reads d hd'.1 hd'.2
  refine Reads.bind (reads_keyword .kwTrait) fun k' _ => ?_
  refine Reads.bind (reads_ident x) fun x' hx => hmembers.map fun ds hds s' => ?_
  rw [Decl.erase, Decl.erase, Decl.eraseAll_eq_map, Decl.eraseAll_eq_map, hx, hds]

section Containers

variable {s k : Span} {ms : List Decl} {members : Parser (List Decl)}
  (hms : ∀ rest, Reads members (inBraces (Decl.printAll ms))
    (fun ds => ds.map Decl.erase = ms.map Decl.erase) rest)

include hms

theorem space_reads {x : Name} : ReadsDecl (space members) (.space s k x ms) := by
  intro rest
  refine Reads.bind (reads_keyword .kwNamespace) fun k' _ => ?_
  refine Reads.bind (reads_ident x) fun x' hx => (hms _).map fun ds hds s' => ?_
  rw [Decl.erase, Decl.erase, Decl.eraseAll_eq_map, Decl.eraseAll_eq_map, hx, hds]

theorem product_reads {x : Name} {gs : List Name} :
    ReadsDecl (product members) (.product s k x gs ms) := by
  intro rest
  refine Reads.bind (reads_keyword .kwType) fun k' _ => ?_
  refine Reads.bind (reads_ident x) fun x' hx => ?_
  refine Reads.bind (generics_reads gs (by simp [inBraces])) fun gs' hgs => ?_
  refine (hms _).map fun ds hds s' => ?_
  rw [Decl.erase, Decl.erase, Decl.eraseAll_eq_map, Decl.eraseAll_eq_map, hx, hgs, hds]

theorem extension_reads {t : TypeExpr} :
    ReadsDecl (extension members) (.extension s k t ms) := by
  intro rest
  refine Reads.bind (reads_keyword .kwExtension) fun k' _ => ?_
  refine Reads.bind (typeExpr_reads t) fun t' ht => (hms _).map fun ds hds s' => ?_
  rw [Decl.erase, Decl.erase, Decl.eraseAll_eq_map, Decl.eraseAll_eq_map, ht, hds]

theorem conformance_reads {t u : TypeExpr} {us : List TypeExpr} :
    ReadsDecl (conformance members) (.conformance s k t (u :: us) ms) := by
  intro rest
  have htraits : Reads (separated1 typeExpr comma) (commas ((u :: us).map TypeExpr.print))
      (fun vs => vs.map TypeExpr.erase = (u :: us).map TypeExpr.erase)
      (inBraces (Decl.printAll ms) ++ .punct .semi :: rest) :=
    reads_separated1 u us (by simp) fun v _ _ _ _ => typeExpr_reads v
  refine Reads.bind (reads_keyword .kwConformance) fun k' _ => ?_
  refine Reads.bind (typeExpr_reads t) fun t' ht => ?_
  refine Reads.bind (reads_punct .colon) fun _ _ => ?_
  refine Reads.bind htraits fun vs hvs => (hms _).map fun ds hds s' => ?_
  rw [Decl.erase, Decl.erase, Decl.eraseAll_eq_map, Decl.eraseAll_eq_map, ht, hvs, hds]

end Containers

def Decl.word : Decl → Option Keyword
  | .space _ _ _ _ => some .kwNamespace
  | .product _ _ _ _ _ => some .kwType
  | .associated _ _ _ => some .kwType
  | .extension _ _ _ _ => some .kwExtension
  | .conformance _ _ _ _ _ => some .kwConformance
  | .trait _ _ _ _ => some .kwTrait
  | .typeAlias _ _ _ _ => some .kwTypealias
  | .operator _ _ _ _ _ => some .kwOperator
  | .function _ _ _ _ _ _ _ => some .kwFun
  | .init _ _ _ _ => some .kwInit
  | .subscript _ _ _ _ _ _ => some .kwSubscript
  | .binding _ _ => none

theorem Decl.refuses_other {d : Decl} {k : Keyword} (h : d.word ≠ some k)
    (hk : ∀ i, .keyword k ≠ Introducer.print i) :
    Refuses (keyword k) (d.print ++ rest) := by
  refine refuses_keyword ?_
  cases d with
  | binding s b => simpa [Decl.print, Binding.print] using fun h => hk _ h.symm
  | _ => simpa [Decl.print, Decl.word] using h

theorem Decl.skips {d : Decl} {k : Keyword} {f : Span → Parser (Span → Decl)}
    {ps : List (Parser (Span → Decl))} {good : (Span → Decl) → Prop} (h : d.word ≠ some k)
    (hk : ∀ i, .keyword k ≠ Introducer.print i) (hps : Reads (choice ps) d.print good rest) :
    Reads (choice ((keyword k >>= f) :: ps)) d.print good rest :=
  Refuses.choice (Refuses.bind (d.refuses_other h hk)) hps

def Decl.members : Decl → List Decl
  | .space _ _ _ ms => ms
  | .product _ _ _ _ ms => ms
  | .extension _ _ _ ms => ms
  | .conformance _ _ _ _ ms => ms
  | _ => []

section DeclIn

variable {inner : Parser Decl}

theorem declIn_refuses {ts : List Token}
    (h : ∀ t ∈ ts.head?, (∀ k, t ≠ .keyword k)) : Refuses (declIn inner) ts := by
  have hword (k : Keyword) : Refuses (keyword k) ts := refuses_keyword fun t ht => h t ht k
  have hbinding : Refuses introducer ts := by
    refine refuses_token fun t ht s => ?_
    cases t with
    | keyword k => exact absurd rfl (h _ ht k)
    | _ => rfl
  refine refuses_spanned (refuses_choice ?_)
  intro p hp
  simp only [List.mem_cons, List.not_mem_nil, or_false] at hp
  rcases hp with rfl | rfl | rfl | rfl | rfl | rfl | rfl | rfl | rfl | rfl | rfl
  all_goals first | exact (hword _).bind | exact hbinding.bind.bind

theorem declIn_reads (d : Decl) (hassoc : d.isAssociated = false) (hwf : d.wellFormed = true)
    (hrefuses : ∀ us, Refuses inner (.punct .rbrace :: us))
    (hinner : ∀ e ∈ d.members, ∀ us,
      Reads inner e.print (fun e' => e'.erase = e.erase) (.punct .semi :: us)) :
    Reads (declIn inner) d.print (fun d' => d'.erase = d.erase) (.punct .semi :: rest) := by
  have hmembers (ms : List Decl) (h : ∀ e ∈ ms, e ∈ d.members) (us : List Token) :
      Reads (braces (many (terminated inner))) (inBraces (Decl.printAll ms))
        (fun ds => ds.map Decl.erase = ms.map Decl.erase) us := by
    rw [Decl.printAll_eq_flatMap]
    exact block_items_reads ms (hrefuses us) fun e he => hinner e (h e he)
  refine reads_spanned ?_
  cases d with
  | associated s k x => simp [Decl.isAssociated] at hassoc
  | space s k x ms => exact .choice (space_reads (hmembers ms fun _ => id) rest)
  | product s k x gs ms =>
      iterate 1 refine Decl.skips (by simp [Decl.word]) (by rintro ⟨⟩ ⟨⟩) ?_
      exact .choice (product_reads (hmembers ms fun _ => id) rest)
  | extension s k t ms =>
      iterate 2 refine Decl.skips (by simp [Decl.word]) (by rintro ⟨⟩ ⟨⟩) ?_
      exact .choice (extension_reads (hmembers ms fun _ => id) rest)
  | conformance s k t ts ms =>
      iterate 3 refine Decl.skips (by simp [Decl.word]) (by rintro ⟨⟩ ⟨⟩) ?_
      cases ts with
      | nil => simp [Decl.wellFormed] at hwf
      | cons u us => exact .choice (conformance_reads (hmembers ms fun _ => id) rest)
  | trait s k x ms =>
      iterate 4 refine Decl.skips (by simp [Decl.word]) (by rintro ⟨⟩ ⟨⟩) ?_
      simp only [Decl.wellFormed, Bool.and_eq_true] at hwf
      exact .choice (trait_reads hwf.2 rest)
  | typeAlias s k x t =>
      iterate 5 refine Decl.skips (by simp [Decl.word]) (by rintro ⟨⟩ ⟨⟩) ?_
      exact .choice (typealias_reads rest)
  | operator s k f fs x =>
      iterate 6 refine Decl.skips (by simp [Decl.word]) (by rintro ⟨⟩ ⟨⟩) ?_
      exact .choice (operator_reads rest)
  | function s k x gs ps t b =>
      iterate 7 refine Decl.skips (by simp [Decl.word]) (by rintro ⟨⟩ ⟨⟩) ?_
      simp only [Decl.wellFormed, Bool.and_eq_true] at hwf
      exact .choice (function_reads hwf.2 rest)
  | init s k ps b =>
      iterate 8 refine Decl.skips (by simp [Decl.word]) (by rintro ⟨⟩ ⟨⟩) ?_
      simp only [Decl.wellFormed, Bool.and_eq_true] at hwf
      exact .choice (initializer_reads hwf.2 rest)
  | subscript s k x ps t b =>
      iterate 9 refine Decl.skips (by simp [Decl.word]) (by rintro ⟨⟩ ⟨⟩) ?_
      simp only [Decl.wellFormed, Bool.and_eq_true] at hwf
      exact .choice (subscript_reads hwf.2 rest)
  | binding s b =>
      iterate 10 refine Decl.skips (by simp [Decl.word]) (by rintro ⟨⟩ ⟨⟩) ?_
      refine .choice ((binding_reads b hwf).map fun b' hb s' => ?_)
      rw [Decl.erase, hb, Decl.erase]

end DeclIn

theorem declAt_refuses {ts : List Token} (n : Nat) (h : ∀ t ∈ ts.head?, ∀ k, t ≠ .keyword k) :
    Refuses (declAt n) ts := by
  cases n with
  | zero => exact refuses_fail _
  | succ n => exact fun pos r => declIn_refuses h pos r

theorem Decl.members_wellFormed {d e : Decl} (hwf : d.wellFormed = true) (he : e ∈ d.members) :
    e.isAssociated = false ∧ e.wellFormed = true := by
  have hall (ms : List Decl) (hms : Decl.membersWellFormed ms = true) (hmem : e ∈ ms) :
      e.isAssociated = false ∧ e.wellFormed = true := by
    rw [Decl.membersWellFormed_eq_all, List.all_eq_true] at hms
    simpa using hms e hmem
  cases d with
  | space s k x ms =>
      simp only [Decl.wellFormed, Bool.and_eq_true] at hwf
      exact hall ms hwf.2 he
  | product s k x gs ms =>
      simp only [Decl.wellFormed, Bool.and_eq_true] at hwf
      exact hall ms hwf.2 he
  | extension s k t ms =>
      simp only [Decl.wellFormed, Bool.and_eq_true] at hwf
      exact hall ms hwf.2 he
  | conformance s k t ts ms =>
      simp only [Decl.wellFormed, Bool.and_eq_true] at hwf
      exact hall ms hwf.2 he
  | _ => simp [Decl.members] at he

theorem Decl.length_print_lt {d e : Decl} (he : e ∈ d.members) :
    e.print.length < d.print.length := by
  have hall (ms : List Decl) (hmem : e ∈ ms) :
      e.print.length < (inBraces (Decl.printAll ms)).length := by
    have hle := length_le_flatMap_of_mem (fun x : Decl => x.print ++ [.punct .semi]) hmem
    rw [Decl.printAll_eq_flatMap, inBraces]
    simp only [List.length_append, List.length_cons, List.length_nil] at hle ⊢
    omega
  cases d with
  | space s k x ms =>
      have := hall ms he
      simp only [Decl.print, List.length_cons]
      omega
  | product s k x gs ms =>
      have := hall ms he
      simp only [Decl.print, List.length_append, List.length_cons]
      omega
  | extension s k t ms =>
      have := hall ms he
      simp only [Decl.print, List.length_append, List.length_cons]
      omega
  | conformance s k t ts ms =>
      have := hall ms he
      simp only [Decl.print, List.length_append, List.length_cons]
      omega
  | _ => simp [Decl.members] at he

theorem declAt_reads (n : Nat) (d : Decl) (hassoc : d.isAssociated = false)
    (hwf : d.wellFormed = true) (hlen : d.print.length < n) :
    Reads (declAt n) d.print (fun d' => d'.erase = d.erase) (.punct .semi :: rest) := by
  induction n generalizing d rest with
  | zero => simp at hlen
  | succ n ih =>
      have hinner : ∀ e ∈ d.members, ∀ us,
          Reads (declAt n) e.print (fun e' => e'.erase = e.erase) (.punct .semi :: us) := by
        intro e he us
        obtain ⟨heassoc, hewf⟩ := Decl.members_wellFormed hwf he
        have hlt := Decl.length_print_lt he
        exact ih e heassoc hewf (by omega)
      intro pos r
      exact declIn_reads d hassoc hwf (fun us => declAt_refuses n (by simp)) hinner pos r

theorem decl_reads (d : Decl) (hassoc : d.isAssociated = false) (hwf : d.wellFormed = true) :
    Reads decl d.print (fun d' => d'.erase = d.erase) (.punct .semi :: rest) := by
  intro pos r
  refine declAt_reads _ d hassoc hwf ?_ pos r
  simp only [List.length_append]
  omega

theorem file_reads (ds : List Decl) (hwf : Decl.membersWellFormed ds = true) :
    Reads file (Decl.printAll ds) (fun es => es.map Decl.erase = ds.map Decl.erase) [] := by
  rw [Decl.membersWellFormed_eq_all, List.all_eq_true] at hwf
  have hdecls : Reads (many (terminated decl)) (Decl.printAll ds)
      (fun es => es.map Decl.erase = ds.map Decl.erase) [] := by
    rw [Decl.printAll_eq_flatMap]
    refine items_reads ds (fun pos r => declAt_refuses _ (by simp) pos r) fun d hd us => ?_
    have hd' := hwf d hd
    rw [Bool.and_eq_true, Bool.not_eq_true'] at hd'
    exact decl_reads d hd'.1 hd'.2
  rw [← List.append_nil (Decl.printAll ds)]
  refine Reads.bind hdecls fun es hes => ?_
  intro pos r
  exact ⟨es, r, rfl, hes⟩

theorem parse_printAll (ds : List Decl) (hwf : Decl.membersWellFormed ds = true) :
    ∃ es, parse (Decl.printAll ds) = .ok es ∧ Decl.eraseAll es = Decl.eraseAll ds := by
  obtain ⟨es, r, hfile, hes⟩ := file_reads ds hwf 0 .start
  rw [List.append_nil] at hfile
  refine ⟨es, ?_, ?_⟩
  · rw [parse, hfile]
  · rw [Decl.eraseAll_eq_map, Decl.eraseAll_eq_map, hes]

def bundledFile : List Decl :=
  let name (x : String) : Name := ⟨x, .zero⟩
  let var (x : String) : Expr := .name .zero none (name x)
  let binary (op : String) (l r : Expr) : Expr := .binary .zero l (name op) r
  let block (ss : List Stmt) : Stmt := .brace .zero ss
  let difference := binary "-" (var "a") (binary "-" (var "b") (binary "*" (var "c") (var "d")))
  let fallback : Stmt := .cond .zero .zero (var "b") (block []) (some (.zero, block []))
  [.product .zero .zero (name "Box") [name "T"] [
    .function .zero .zero (name "get") [] [⟨name "a", none⟩] (some (.name .zero (name "Int")))
      (some (.bundle [⟨.zero, .onLet, .zero, block [.ret .zero .zero (some difference)]⟩,
        ⟨.zero, .onInout, .zero, block []⟩])),
    .init .zero .zero []
      (some (block [.cond .zero .zero (binary "<" (var "a") (var "b"))
        (block [.assign .zero (.name .zero (some (var "self")) (name "a"))
          (.call .zero (var "f") [(some (name "x"), var "a")])])
        (some (.zero, fallback))]))]]

theorem parse_bundledFile :
    Decl.membersWellFormed bundledFile = true ∧
      ∃ es, parse (Decl.printAll bundledFile) = .ok es ∧
        Decl.eraseAll es = Decl.eraseAll bundledFile := by
  have hwf : Decl.membersWellFormed bundledFile = true := by decide +kernel
  exact ⟨hwf, parse_printAll bundledFile hwf⟩

end LanguageService.Surface
