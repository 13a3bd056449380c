import LanguageService.Proofs.Nested

namespace LanguageService

open Surface (Spelling Between Spread)

namespace Lowering

variable {l : Layout} {lo hi : Nat}

theorem introduced {k : Keyword} {s : Surface.Span} {P : Spelling}
    (h : Between l.tokens lo hi (Surface.keywordAt k s ++ P)) :
    ∃ m, lo < m ∧ l.Words lo m [.word (l.site s) k.spelling] ∧ Between l.tokens m hi P := by
  obtain ⟨m, hk, hP⟩ := h.append
  have hword := words_of_word hk rfl
  exact ⟨m, hword.lt, hword, hP⟩

mutual

theorem stmt_places (hl : l.Ordered) : ∀ (x : Surface.Stmt) {lo hi : Nat},
    Between l.tokens lo hi x.spelled → Places l (stmt l x) lo hi fun i => [.part i]
  | .brace s ss, lo, hi, h => by
      obtain ⟨a, b, hs, hlo, hhi, hsize, hss⟩ := Between.spanning h
      obtain ⟨hlt, hss⟩ := hss.inner
      rw [Surface.Stmt.spellings_eq_map] at hss
      rw [stmt]
      refine Places.widen (PlacesAfter.places a ?_) hlo hhi
      exact .bind (stmts_places hl ss (Surface.spread_items hss)) fun _ =>
        .insert hl hs rfl rfl rfl (Nat.le_refl _) (Nat.le_refl _) hlt hsize
  | .ret s k v, lo, hi, h => by
      obtain ⟨a, b, hs, hlo, hhi, hsize, h⟩ := Between.spanning h
      obtain ⟨m, ham, hword, hv⟩ := introduced h
      have hmb := hv.le
      rw [stmt]
      refine Places.widen (PlacesAfter.places a ?_) hlo hhi
      exact .words hword (.bind (expr?_places hl (Surface.spread_optional hv)) fun _ =>
        .insert hl hs rfl rfl rfl (Nat.le_refl _) (Nat.le_refl _) (by omega) hsize)
  | .loop s k e x, lo, hi, h => by
      obtain ⟨a, b, hs, hlo, hhi, hsize, h⟩ := Between.spanning h
      obtain ⟨m', h, hx⟩ := Between.append h
      obtain ⟨m, ham, hword, he⟩ := introduced h
      have hmm := he.le
      have hmb := hx.le
      rw [stmt]
      refine Places.widen (PlacesAfter.places a ?_) hlo hhi
      exact .words hword (.bind (expr_places hl e he) fun _ => .bind (stmt_places hl x hx) fun _ =>
        .insert hl hs rfl rfl rfl (Nat.le_refl _) (Nat.le_refl _) (by omega) hsize)
  | .cond s k e yes none, lo, hi, h => by
      obtain ⟨a, b, hs, hlo, hhi, hsize, h⟩ := Between.spanning h
      obtain ⟨m', h, hx⟩ := Between.append h
      obtain ⟨m, ham, hword, he⟩ := introduced h
      have hmm := he.le
      have hmb := hx.le
      rw [stmt]
      refine Places.widen (PlacesAfter.places a ?_) hlo hhi
      exact .words hword (.bind (expr_places hl e he) fun _ =>
        .bind (stmt_places hl yes hx) fun _ =>
          .insert hl hs rfl rfl rfl (Nat.le_refl _) (Nat.le_refl _) (by omega) hsize)
  | .cond s k e yes (some (other, no)), lo, hi, h => by
      obtain ⟨a, b, hs, hlo, hhi, hsize, h⟩ := Between.spanning h
      obtain ⟨m₂, h, hno⟩ := Between.append h
      obtain ⟨m₁, h, hyes⟩ := Between.append h
      obtain ⟨m, ham, hword, he⟩ := introduced h
      obtain ⟨m₃, hom, hother, hno⟩ := introduced hno
      have hem := he.le
      have hym := hyes.le
      have hnm := hno.le
      rw [stmt]
      refine Places.widen (PlacesAfter.places a ?_) hlo hhi
      exact .words hword (.bind (expr_places hl e he) fun _ =>
        .bind (stmt_places hl yes hyes) fun _ => .words hother
          (.bind (stmt_places hl no hno) fun _ =>
            .insert hl hs rfl rfl rfl (Nat.le_refl _) (Nat.le_refl _) (by omega) hsize))
  | .assign s x y, lo, hi, h => by
      obtain ⟨a, b, hs, hlo, hhi, hsize, h⟩ := Between.spanning h
      obtain ⟨m, hx, h⟩ := Between.append h
      obtain ⟨m', hassign, hy⟩ := Between.append h
      have hx := expr_places hl x hx
      have hy := (expr_places hl y hy).widen hassign.le (Nat.le_refl _)
      rw [stmt]
      refine Places.widen (PlacesAfter.places a ?_) hlo hhi
      exact .bind hx fun _ => .bind hy fun _ =>
        .insert hl hs rfl rfl rfl (Nat.le_refl _) (Nat.le_refl _) (Nat.lt_trans hx.lt hy.lt) hsize
  | .expr s e, lo, hi, h => by
      obtain ⟨a, b, hs, hlo, hhi, hsize, he⟩ := Between.spanning h
      have he := expr_places hl e he
      rw [stmt]
      refine Places.widen (PlacesAfter.places a ?_) hlo hhi
      exact .bind he fun _ =>
        .insert hl hs rfl rfl rfl (Nat.le_refl _) (Nat.le_refl _) he.lt hsize
  | .binding s d, lo, hi, h => by
      obtain ⟨a, b, hs, hlo, hhi, hsize, hd⟩ := Between.spanning h
      have hd := binding_places hl hs hsize hd
      rw [stmt]
      refine Places.widen (PlacesAfter.places a ?_) hlo hhi
      exact .bind hd fun _ =>
        .insert hl hs rfl rfl rfl (Nat.le_refl _) (Nat.le_refl _) hd.lt hsize

theorem stmts_places (hl : l.Ordered) : ∀ (ss : List Surface.Stmt) {lo hi : Nat},
    Spread l.tokens Surface.Stmt.spelled lo hi ss → Places l (stmts l ss) lo hi (List.map .part)
  | [], lo, hi, h => by
      rw [stmts]
      exact .pure rfl h
  | x :: ss, lo, hi, h => by
      obtain ⟨mid, hx, hss⟩ := h
      rw [stmts]
      refine PlacesAfter.places lo (.bind (stmt_places hl x hx) fun _ =>
        .bind (stmts_places hl ss hss) fun _ => ?_)
      exact .pure (by simp) (Nat.le_refl _) (Nat.le_refl _)

end

theorem stmt?_places (hl : l.Ordered) {o : Option Surface.Stmt}
    (h : Spread l.tokens Surface.Stmt.spelled lo hi o.toList) :
    Places l (stmt? l o) lo hi fun i => i.toList.map .part := by
  cases o with
  | none => exact .pure rfl h
  | some x =>
      obtain ⟨mid, hx, hmid⟩ := h
      refine PlacesAfter.places lo (.bind (stmt_places hl x hx) fun _ => ?_)
      exact .pure (by simp) (Nat.le_refl _) hmid

theorem spread_generics {gs : List Surface.Name}
    (h : Between l.tokens lo hi (Surface.genericsSpelled gs)) :
    Spread l.tokens Surface.Name.spelled lo hi gs := by
  rw [Surface.genericsSpelled] at h
  split at h
  · next hempty =>
      rw [List.isEmpty_iff.mp hempty]
      exact h.le
  · exact Surface.spread_listed h.inner.2

theorem generics_places (hl : l.Ordered) {gs : List Surface.Name}
    (h : Spread l.tokens Surface.Name.spelled lo hi gs) :
    Places l (generics l gs) lo hi (List.map .part) := by
  induction gs generalizing lo with
  | nil =>
      rw [generics]
      exact .pure rfl h
  | cons x xs ih =>
      obtain ⟨mid, hx, hxs⟩ := h
      rw [generics]
      refine PlacesAfter.places lo
        (.bind (name_places hl hx (k := .generic (l.name x)) rfl rfl rfl) fun _ =>
          .bind (ih hxs) fun _ => ?_)
      exact .pure (by simp) (Nat.le_refl _) (Nat.le_refl _)

theorem param_places (hl : l.Ordered) {p : Surface.Param} (h : Between l.tokens lo hi p.spelled) :
    Places l (param l p) lo hi fun i => [.part i] := by
  obtain ⟨m, hx, htype⟩ := Between.append h
  obtain ⟨a, b, hspan, ha, hb, hsize, hx⟩ := between_span hx fun _ _ hx => hx.1
  have hname := words_of_spelled hx
  have hab := hname.lt
  have hstart : p.name.span.start = a := by rw [hspan]
  have hstop : p.name.span.stop = b := by rw [hspan]
  obtain ⟨r, hreach, hbr, hr, hsize', htype⟩ := reach_places hl hstart hstop (Nat.le_of_lt hab)
    hsize (htype.widen hb (Nat.le_refl _))
  refine Places.widen (PlacesAfter.places a ?_) ha hr
  refine .words hname (.bind htype fun _ => .insert hl ?_ rfl rfl rfl (Nat.le_refl _)
    (Nat.le_refl _) (by omega) hsize')
  rw [← hreach]
  split
  · next t ht => simp [ht]
  · next ht => simp [ht, Surface.Span.to, hspan, Nat.max_eq_left (Nat.le_of_lt hab)]

theorem params_places (hl : l.Ordered) {ps : List Surface.Param}
    (h : Spread l.tokens Surface.Param.spelled lo hi ps) :
    Places l (params l ps) lo hi (List.map .part) := by
  induction ps generalizing lo with
  | nil =>
      rw [params]
      exact .pure rfl h
  | cons p ps ih =>
      obtain ⟨mid, hp, hps⟩ := h
      rw [params]
      refine PlacesAfter.places lo (.bind (param_places hl hp) fun _ =>
        .bind (ih hps) fun _ => ?_)
      exact .pure (by simp) (Nat.le_refl _) (Nat.le_refl _)

theorem effect_not_error (e : Effect) : (Surface.Effect.print e).isError = false := by
  cases e <;> rfl

theorem variants_places (hl : l.Ordered) {vs : List Surface.Variant}
    (h : Spread l.tokens Surface.Variant.spelled lo hi vs) :
    Places l (variants l vs) lo hi (List.map .part) := by
  induction vs generalizing lo with
  | nil =>
      rw [variants]
      exact .pure rfl h
  | cons v vs ih =>
      obtain ⟨mid, hv, hvs⟩ := h
      obtain ⟨a, b, hs, ha, hb, hsize, hv⟩ := Between.spanning hv
      obtain ⟨m, heffect, hbody⟩ := Between.append hv
      have hword := words_of_word heffect (effect_not_error v.effect)
      have ham := hword.lt
      have hmb := hbody.le
      rw [variants]
      refine Places.widen (PlacesAfter.places a ?_) ha (Nat.le_refl _)
      refine .words hword (.bind (stmt_places hl v.body hbody) fun _ => .andThen (.insert hl hs
        rfl rfl rfl (Nat.le_refl _) (Nat.le_refl _) (by omega) hsize) fun _ =>
          .bind ((ih hvs).widen hb (Nat.le_refl _)) fun _ => ?_)
      exact .pure (by simp) (Nat.le_refl _) (Nat.le_refl _)

structure OnlyParams (t t' : Tree) (ps : List NodeId) : Prop where
  keeps : t.Keeps t'
  mem : ∀ i, t.size ≤ i → i < t'.size → i ∈ ps
  lt : ∀ i ∈ ps, i < t'.size
  synthesized : ∀ i ∈ ps, t'.isSynthesized i = true
  kind : ∀ i ∈ ps, ∃ x, t'.kind i = .parameter x none

theorem OnlyParams.cons {t t' : Tree} {x : Name} {ps : List NodeId}
    (h : OnlyParams (t.insert (.parameter x none) .synthesized).2 t' ps) :
    OnlyParams t t' (t.size :: ps) := by
  have hkeeps := t.keeps_insert (.parameter x none) .synthesized
  have hsize := t.size_insert (.parameter x none) .synthesized
  have hlt : t.size < (t.insert (.parameter x none) .synthesized).2.size := by omega
  refine ⟨hkeeps.trans h.keeps, ?_, ?_, ?_, ?_⟩
  · intro i hle hi
    by_cases heq : i = t.size
    · simp [heq]
    · exact List.mem_cons_of_mem _ (h.mem i (by omega) hi)
  · exact List.forall_mem_cons.mpr ⟨Nat.lt_of_lt_of_le hlt h.keeps.size_le, h.lt⟩
  · refine List.forall_mem_cons.mpr ⟨?_, h.synthesized⟩
    rw [h.keeps.isSynthesized_eq hlt, Tree.isSynthesized_insert, if_pos rfl]
    rfl
  · refine List.forall_mem_cons.mpr ⟨⟨x, ?_⟩, h.kind⟩
    rw [h.keeps.kind_eq hlt, Tree.kind_insert, if_pos rfl]

theorem memberwiseParams_only (xs : List String) (t : Tree) :
    OnlyParams t (memberwiseParams xs t).2 (memberwiseParams xs t).1 := by
  induction xs generalizing t with
  | nil =>
      rw [memberwiseParams]
      exact ⟨.refl t, fun i hle hlt => absurd hlt (Nat.not_lt.mpr hle),
        fun _ h => absurd h List.not_mem_nil, fun _ h => absurd h List.not_mem_nil,
        fun _ h => absurd h List.not_mem_nil⟩
  | cons x xs ih =>
      have hcons := (ih (t.insert (.parameter ⟨x, .synthesized⟩ none) .synthesized).2).cons
      rw [← t.fst_insert (.parameter ⟨x, .synthesized⟩ none) .synthesized] at hcons
      rw [memberwiseParams]
      exact hcons

theorem placed_of_synthesized {t : Tree} {i : NodeId} (hi : t.isSynthesized i = true)
    (hmodule : t.isModule i = false) (hexpr : (t.kind i).isExpr = false)
    (hbare : (t.kind i).isMemberwiseInit = false → t.children i = [])
    (hchildren : ∀ c ∈ t.children i, c < i ∧ t.isSynthesized c = true) : t.Placed i where
  written := by simp [hi]
  inOrder := by simp [hi]
  hidden := fun c hc _ => (hchildren c hc).2
  bare := fun _ => hbare
  before := fun c hc => (hchildren c hc).1
  notModule := hmodule
  unwritten := fun _ => hi
  solid := by simp [hexpr]

theorem OnlyParams.lays_init {t t₁ : Tree} {ps : List NodeId} (h : OnlyParams t t₁ ps)
    (f : File) : Tree.Lays t (t₁.insert (.init .synthesized ps none true) .synthesized).2 f := by
  have hkeeps := t₁.keeps_insert (.init .synthesized ps none true) .synthesized
  have hsize := t₁.size_insert (.init .synthesized ps none true) .synthesized
  have hkind := t₁.kind_insert (.init .synthesized ps none true) .synthesized t₁.size
  have hchildren := t₁.children_insert (.init .synthesized ps none true) .synthesized t₁.size
  have hinit := t₁.isSynthesized_insert (.init .synthesized ps none true) .synthesized t₁.size
  rw [if_pos rfl] at hkind hchildren hinit
  rw [show Kind.children (.init .synthesized ps none true) = ps from List.append_nil ps]
    at hchildren
  have hsynthesized (c : NodeId) (hc : c ∈ ps) :
      (t₁.insert (.init .synthesized ps none true) .synthesized).2.isSynthesized c = true := by
    rw [hkeeps.isSynthesized_eq (h.lt c hc)]
    exact h.synthesized c hc
  refine ⟨h.keeps.trans hkeeps, fun i hle hlt => ?_, fun _ i hle hlt _ => ?_⟩
  · by_cases hi : i < t₁.size
    · have hmem := h.mem i hle hi
      obtain ⟨x, hx⟩ := h.kind i hmem
      have hnone : (t₁.insert (.init .synthesized ps none true) .synthesized).2.children i = [] := by
        simp [Tree.children, hkeeps.kind_eq hi, hx, Kind.children]
      refine placed_of_synthesized (hsynthesized i hmem) ?_ ?_ (fun _ => hnone) (by simp [hnone])
      · simp [Tree.isModule, hkeeps.kind_eq hi, hx]
      · simp [hkeeps.kind_eq hi, hx, Kind.isExpr]
    · obtain rfl : i = t₁.size := by omega
      refine placed_of_synthesized hinit (by simp [Tree.isModule, hkind])
        (by simp [hkind, Kind.isExpr]) (by simp [hkind, Kind.isMemberwiseInit]) fun c hc => ?_
      rw [hchildren] at hc
      exact ⟨h.lt c hc, hsynthesized c hc⟩
  · by_cases hi : i < t₁.size
    · refine .inr ⟨t₁.size, hi, by rw [hkind]; rfl, ?_⟩
      rw [hchildren]
      exact h.mem i hle hi
    · obtain rfl : i = t₁.size := by omega
      exact .inl (by rw [hkind]; rfl)

theorem memberwise_lays (ms : List Surface.Decl) (t : Tree) (f : File) :
    Tree.Lays t (memberwise ms t).2 f ∧ ∀ m ∈ (memberwise ms t).1.toList,
      m < (memberwise ms t).2.size ∧ (memberwise ms t).2.isSynthesized m = true := by
  rw [memberwise]
  split
  · exact ⟨.refl t f, fun _ hm => absurd hm List.not_mem_nil⟩
  · have hparams := memberwiseParams_only (storedNames ms) t
    refine ⟨hparams.lays_init f, fun m hm => ?_⟩
    obtain rfl : m = (memberwiseParams (storedNames ms) t).2.size := by
      rw [← Tree.fst_insert _ (.init .synthesized (memberwiseParams (storedNames ms) t).1 none true)
        .synthesized]
      exact (Option.mem_toList.mp hm |> Option.some.inj).symm
    constructor
    · exact Nat.lt_of_lt_of_eq (Nat.lt_succ_self _) (Tree.size_insert _ _ _).symm
    · exact (Tree.isSynthesized_insert _ _ _ _).trans (if_pos rfl)

theorem product_places (hl : l.Ordered) {ms : List Surface.Decl} {s : Surface.Span}
    {introducer : Site} {x : Name} {gs is : List NodeId} {lo mid lo' hi : Nat}
    (hs : s = ⟨lo', hi⟩) (hlo : lo' ≤ lo) (hmid : mid ≤ hi) (hlt : lo' < hi)
    (hhi : hi ≤ l.tokens.length) :
    PlacesAfter l (do
      let m ← memberwise ms
      insert (.product introducer x gs is m) (l.site s))
        (.word introducer "type" :: .name x :: (gs ++ is).map .part) lo mid lo' hi
          fun i => [.part i] := by
  intro t hrow
  obtain ⟨hlays, hextra⟩ := memberwise_lays ms t l.file
  obtain ⟨hlays', hrow'⟩ := (hrow.keeps hlays.keeps).insert hl
    (k := .product introducer x gs is (memberwise ms t).1) hextra hs rfl rfl hlo hmid hlt hhi
  exact ⟨hlays.trans hlays', hrow'⟩

theorem spread_outputs {o : Option Surface.TypeExpr}
    (h : Between l.tokens lo hi (.optional Surface.outputSpelled o)) :
    Spread l.tokens Surface.TypeExpr.spelled lo hi o.toList := by
  refine (Surface.spread_optional h).mono fun t lo hi ht => ?_
  obtain ⟨mid, harrow, ht⟩ := Between.append (Q := t.spelled) ht
  exact ht.widen harrow.le (Nat.le_refl _)

theorem spread_params {ps : List Surface.Param}
    (h : Between l.tokens lo hi (Surface.paramsSpelled ps)) :
    Spread l.tokens Surface.Param.spelled lo hi ps :=
  Surface.spread_listedTrailing h.inner.2

theorem fixity_not_error (f : Fixity) : (Surface.Fixity.print f).isError = false := by
  cases f <;> rfl

theorem alias_places (hl : l.Ordered) {s k : Surface.Span} {x : Surface.Name}
    {t : Surface.TypeExpr} (h : Between l.tokens lo hi (Surface.Decl.spelled (.typeAlias s k x t))) :
    Places l (decl l (.typeAlias s k x t)) lo hi fun i => [.part i] := by
  obtain ⟨a, b, hs, hlo, hhi, hsize, h⟩ := Between.spanning h
  obtain ⟨m₂, h, ht⟩ := Between.append h
  obtain ⟨m₁, h, hassign⟩ := Between.append h
  obtain ⟨m, ham, hword, hx⟩ := introduced h
  have hname := words_of_spelled hx
  have hxm := hname.lt
  have hassign := hassign.le
  have htm := ht.le
  rw [decl]
  refine Places.widen (PlacesAfter.places a ?_) hlo hhi
  exact .words hword (.words hname (.bind ((typeExpr_places hl t ht).widen hassign
    (Nat.le_refl _)) fun _ =>
      .insert hl hs rfl rfl rfl (Nat.le_refl _) (Nat.le_refl _) (by omega) hsize))

theorem function_places (hl : l.Ordered) {s k : Surface.Span} {x : Surface.Name}
    {gs : List Surface.Name} {ps : List Surface.Param} {t : Option Surface.TypeExpr}
    {body : Option Surface.Body}
    (h : Between l.tokens lo hi (Surface.Decl.spelled (.function s k x gs ps t body))) :
    Places l (decl l (.function s k x gs ps t body)) lo hi fun i => [.part i] := by
  obtain ⟨a, b, hs, hlo, hhi, hsize, h⟩ := Between.spanning h
  obtain ⟨m₄, h, hbody⟩ := Between.append h
  obtain ⟨m₃, h, ht⟩ := Between.append h
  obtain ⟨m₂, h, hps⟩ := Between.append h
  obtain ⟨m₁, h, hgs⟩ := Between.append h
  obtain ⟨m, ham, hword, hx⟩ := introduced h
  have hname := words_of_spelledFunction hx
  have hxm := hname.lt
  have hgm := hgs.le
  have hpm := hps.le
  have htm := ht.le
  have hbm := hbody.le
  have hgs := generics_places hl (spread_generics hgs)
  have hps := params_places hl (spread_params hps)
  have ht := typeExpr?_places hl (spread_outputs ht)
  match body, hbody with
  | some (.bundle vs), hbody =>
      rw [decl]
      refine Places.widen (PlacesAfter.places a ?_) hlo hhi
      refine .words hword (.words hname (.bind hgs fun _ => .bind hps fun _ => .bind ht fun _ =>
        .bind (variants_places hl (Surface.spread_all (Between.inner hbody).2)) fun _ =>
          .insert hl hs ?_ rfl rfl (Nat.le_refl _) (Nat.le_refl _) (by omega) hsize))
      simp [Kind.pieces, Keyword.spelling]
  | some (.block x), hbody =>
      rw [decl]
      refine Places.widen (PlacesAfter.places a ?_) hlo hhi
      refine .words hword (.words hname (.bind hgs fun _ => .bind hps fun _ => .bind ht fun _ =>
        .bind (stmt_places hl x hbody) fun _ =>
          .insert hl hs ?_ rfl rfl (Nat.le_refl _) (Nat.le_refl _) (by omega) hsize))
      simp [Kind.pieces, Keyword.spelling]
  | none, hbody =>
      rw [decl]
      refine Places.widen (PlacesAfter.places a ?_) hlo hhi
      refine .words hword (.words hname (.bind hgs fun _ => .bind hps fun _ => .bind ht fun _ =>
        .insert hl hs ?_ rfl rfl (Nat.le_refl _) hbm (by omega) hsize))
      simp [Kind.pieces, Keyword.spelling]

theorem initializer_places (hl : l.Ordered) {s k : Surface.Span} {ps : List Surface.Param}
    {body : Option Surface.Stmt}
    (h : Between l.tokens lo hi (Surface.Decl.spelled (.init s k ps body))) :
    Places l (decl l (.init s k ps body)) lo hi fun i => [.part i] := by
  obtain ⟨a, b, hs, hlo, hhi, hsize, h⟩ := Between.spanning h
  obtain ⟨m₁, h, hbody⟩ := Between.append h
  obtain ⟨m, ham, hword, hps⟩ := introduced h
  have hpm := hps.le
  have hbm := hbody.le
  rw [decl]
  refine Places.widen (PlacesAfter.places a ?_) hlo hhi
  refine .words hword (.bind (params_places hl (spread_params hps)) fun _ =>
    .bind (stmt?_places hl (Surface.spread_optional hbody)) fun _ =>
      .insert hl hs ?_ rfl rfl (Nat.le_refl _) (Nat.le_refl _) (by omega) hsize)
  simp [Kind.pieces, Keyword.spelling]

theorem subscript_places (hl : l.Ordered) {s k : Surface.Span} {x : Option Surface.Name}
    {ps : List Surface.Param} {t : Surface.TypeExpr} {body : Option Surface.Stmt}
    (h : Between l.tokens lo hi (Surface.Decl.spelled (.subscript s k x ps t body))) :
    Places l (decl l (.subscript s k x ps t body)) lo hi fun i => [.part i] := by
  obtain ⟨a, b, hs, hlo, hhi, hsize, h⟩ := Between.spanning h
  obtain ⟨m₃, h, hbody⟩ := Between.append h
  obtain ⟨m₂, h, ht⟩ := Between.append h
  obtain ⟨m₁, h, hps⟩ := Between.append h
  obtain ⟨m, ham, hword, hx⟩ := introduced h
  obtain ⟨m', hcolon, ht⟩ := Between.append ht
  have hxm := hx.le
  have hpm := hps.le
  have hcm := hcolon.le
  have htm := ht.le
  have hbm := hbody.le
  have hname : l.Words m m₁ ((x.map l.name).toList.map .name) := by
    cases x with
    | none => exact fun _ => hxm
    | some x => exact words_of_spelled hx
  rw [decl]
  refine Places.widen (PlacesAfter.places a ?_) hlo hhi
  refine .words hword (.words hname (.bind (params_places hl (spread_params hps)) fun _ =>
    .bind ((typeExpr_places hl t ht).widen hcm (Nat.le_refl _)) fun _ =>
      .bind (stmt?_places hl (Surface.spread_optional hbody)) fun _ =>
        .insert hl hs ?_ rfl rfl (Nat.le_refl _) (Nat.le_refl _) (by omega) hsize))
  simp [Kind.pieces, Keyword.spelling]

mutual

theorem decl_places (hl : l.Ordered) : ∀ (d : Surface.Decl) {lo hi : Nat},
    Between l.tokens lo hi d.spelled → Places l (decl l d) lo hi fun i => [.part i]
  | .space s k x ms, lo, hi, h => by
      obtain ⟨a, b, hs, hlo, hhi, hsize, h⟩ := Between.spanning h
      obtain ⟨m₁, h, hms⟩ := Between.append h
      obtain ⟨m, ham, hword, hx⟩ := introduced h
      have hname := words_of_spelled hx
      have hxm := hname.lt
      obtain ⟨hlt, hms⟩ := hms.inner
      rw [Surface.Decl.spellings_eq_map] at hms
      rw [decl]
      refine Places.widen (PlacesAfter.places a ?_) hlo hhi
      exact .words hword (.words hname (.bind (decls_places hl ms (Surface.spread_items hms))
        fun _ => .insert hl hs rfl rfl rfl (Nat.le_refl _) (Nat.le_refl _) (by omega) hsize))
  | .product s k x gs ms, lo, hi, h => by
      obtain ⟨a, b, hs, hlo, hhi, hsize, h⟩ := Between.spanning h
      obtain ⟨m₂, h, hms⟩ := Between.append h
      obtain ⟨m₁, h, hgs⟩ := Between.append h
      obtain ⟨m, ham, hword, hx⟩ := introduced h
      have hname := words_of_spelled hx
      have hxm := hname.lt
      have hgm := hgs.le
      obtain ⟨hlt, hms⟩ := hms.inner
      rw [Surface.Decl.spellings_eq_map] at hms
      rw [decl]
      refine Places.widen (PlacesAfter.places a ?_) hlo hhi
      refine .words hword (.words hname (.bind (generics_places hl (spread_generics hgs)) fun _ =>
        .bind (decls_places hl ms (Surface.spread_items hms)) fun _ => ?_))
      simpa [Keyword.spelling] using
        product_places hl hs (Nat.le_refl _) (Nat.le_refl _) (by omega) hsize
  | .associated s k x, lo, hi, h => by
      rw [decl]
      refine leaf_places hl h rfl rfl fun a b h => ?_
      obtain ⟨m, ham, hword, hx⟩ := introduced h
      have hname := words_of_spelled hx
      exact ⟨Nat.lt_trans ham hname.lt, fun t => (hword t).append (hname t)⟩
  | .extension s k t ms, lo, hi, h => by
      obtain ⟨a, b, hs, hlo, hhi, hsize, h⟩ := Between.spanning h
      obtain ⟨m₁, h, hms⟩ := Between.append h
      obtain ⟨m, ham, hword, ht⟩ := introduced h
      have htm := ht.le
      obtain ⟨hlt, hms⟩ := hms.inner
      rw [Surface.Decl.spellings_eq_map] at hms
      rw [decl]
      refine Places.widen (PlacesAfter.places a ?_) hlo hhi
      exact .words hword (.bind (typeExpr_places hl t ht) fun _ =>
        .bind (decls_places hl ms (Surface.spread_items hms)) fun _ =>
          .insert hl hs rfl rfl rfl (Nat.le_refl _) (Nat.le_refl _) (by omega) hsize)
  | .conformance s k t ts ms, lo, hi, h => by
      obtain ⟨a, b, hs, hlo, hhi, hsize, h⟩ := Between.spanning h
      obtain ⟨m₃, h, hms⟩ := Between.append h
      obtain ⟨m₂, h, hts⟩ := Between.append h
      obtain ⟨m₁, h, hcolon⟩ := Between.append h
      obtain ⟨m, ham, hword, ht⟩ := introduced h
      have htm := ht.le
      have hcm := hcolon.le
      have htsm := hts.le
      obtain ⟨hlt, hms⟩ := hms.inner
      rw [Surface.Decl.spellings_eq_map] at hms
      rw [decl]
      refine Places.widen (PlacesAfter.places a ?_) hlo hhi
      refine .words hword (.bind (typeExpr_places hl t ht) fun _ =>
        .bind ((typeExprs_places hl ts (Surface.spread_listed hts)).widen hcm (Nat.le_refl _))
          fun _ => .bind (decls_places hl ms (Surface.spread_items hms)) fun _ =>
            .insert hl hs ?_ rfl rfl (Nat.le_refl _) (Nat.le_refl _) (by omega) hsize)
      simp [Kind.pieces, Keyword.spelling]
  | .trait s k x ms, lo, hi, h => by
      obtain ⟨a, b, hs, hlo, hhi, hsize, h⟩ := Between.spanning h
      obtain ⟨m₁, h, hms⟩ := Between.append h
      obtain ⟨m, ham, hword, hx⟩ := introduced h
      have hname := words_of_spelled hx
      have hxm := hname.lt
      obtain ⟨hlt, hms⟩ := hms.inner
      rw [Surface.Decl.spellings_eq_map] at hms
      rw [decl]
      refine Places.widen (PlacesAfter.places a ?_) hlo hhi
      exact .words hword (.words hname (.bind (decls_places hl ms (Surface.spread_items hms))
        fun _ => .insert hl hs rfl rfl rfl (Nat.le_refl _) (Nat.le_refl _) (by omega) hsize))
  | .typeAlias s k x t, _, _, h => alias_places hl h
  | .operator s k f fs x, lo, hi, h => by
      rw [decl]
      refine leaf_places hl h rfl rfl fun a b h => ?_
      obtain ⟨m₁, h, hx⟩ := Between.append h
      obtain ⟨m, ham, hword, hf⟩ := introduced h
      have hfixity := words_of_word hf (fixity_not_error f)
      have hname := words_of_spelledOperator hx
      have hlt := Nat.lt_trans (Nat.lt_trans ham hfixity.lt) hname.lt
      exact ⟨hlt, fun t => ((hword t).append (hfixity t)).append (hname t)⟩
  | .function s k x gs ps t body, _, _, h => function_places hl h
  | .init s k ps body, _, _, h => initializer_places hl h
  | .subscript s k x ps t body, _, _, h => subscript_places hl h
  | .binding s d, lo, hi, h => by
      obtain ⟨a, b, hs, hlo, hhi, hsize, hd⟩ := Between.spanning h
      rw [decl]
      exact (binding_places hl hs hsize hd).widen hlo hhi

theorem decls_places (hl : l.Ordered) : ∀ (ds : List Surface.Decl) {lo hi : Nat},
    Spread l.tokens Surface.Decl.spelled lo hi ds → Places l (decls l ds) lo hi (List.map .part)
  | [], lo, hi, h => by
      rw [decls]
      exact .pure rfl h
  | d :: ds, lo, hi, h => by
      obtain ⟨mid, hd, hds⟩ := h
      rw [decls]
      refine PlacesAfter.places lo (.bind (decl_places hl d hd) fun _ =>
        .bind (decls_places hl ds hds) fun _ => ?_)
      exact .pure (by simp) (Nat.le_refl _) (Nat.le_refl _)

end

end Lowering

end LanguageService
