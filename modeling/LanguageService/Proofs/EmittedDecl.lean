import LanguageService.Proofs.Emitted
import LanguageService.Proofs.Walking

namespace LanguageService

open Surface (Spelling Strung plainly)
open Highlight (marksAt)

namespace Lowering

variable {l : Layout} {i : Nat} {ts : List Token}

theorem stmts_emits {ss : List Surface.Stmt} (h : Strung (plainly Surface.Stmt.spelled) i ts [] ss)
    (hss : ∀ x ∈ ss, ∀ i ts, x.spelled i ts → Emits l (stmt l x) i ts [] fun n => [.part n]) :
    Emits l (stmts l ss) i ts [] (List.map .part) :=
  .nodes (by rw [stmts]) (fun x ss => by rw [stmts]) h hss

mutual

theorem stmt_emits : ∀ (x : Surface.Stmt) (i : Nat) (ts : List Token),
    x.spelled i ts → Emits l (stmt l x) i ts [] fun n => [.part n]
  | .brace s ss, i, ts, h => by
      rw [Surface.Stmt.spelled, Surface.Stmt.spellings_eq_map] at h
      have hss : Strung (plainly Surface.Stmt.spelled) i ts [] ss :=
        Surface.strung_between h.2 rfl rfl fun _ _ => Surface.plain_items
      rw [stmt]
      exact Emits.bind (stmts_emits hss (stmts_each ss)) fun _ =>
        .insert rfl rfl
  | .ret s k v, i, ts, h => by
      obtain ⟨-, us, vs, rfl, hk, hv⟩ := h
      rw [stmt]
      exact Emits.words (fun _ => strung_word hk rfl)
        (.bind (.optional (g := expr l) rfl (fun _ => rfl) hv fun e _ => expr_emits e _ _)
          fun _ => .insert rfl rfl)
  | .loop s k e x, i, ts, h => by
      obtain ⟨-, _, ws, rfl, ⟨us, vs, rfl, hk, he⟩, hx⟩ := h
      rw [stmt]
      exact Emits.words (fun _ => strung_word hk rfl)
        (.bind (expr_emits e _ _ he) fun _ => .bind (stmt_emits x _ _ hx) fun _ =>
          .insert rfl rfl)
  | .cond s k e yes none, i, ts, h => by
      obtain ⟨-, _, ws, rfl, ⟨us, vs, rfl, hk, he⟩, hyes⟩ := h
      rw [stmt]
      exact Emits.words (fun _ => strung_word hk rfl)
        (.bind (expr_emits e _ _ he) fun _ => .bind (stmt_emits yes _ _ hyes) fun _ =>
          .insert rfl rfl)
  | .cond s k e yes (some (other, no)), i, ts, h => by
      obtain ⟨-, _, zs, rfl, ⟨_, ws, rfl, ⟨us, vs, rfl, hk, he⟩, hyes⟩, xs, ys, rfl, hother,
        hno⟩ := h
      rw [Nat.add_assoc, ← List.length_append] at hno
      rw [stmt, ← List.append_assoc]
      exact Emits.words (fun _ => strung_word hk rfl)
        (.bind (expr_emits e _ _ he) fun _ => .bind (stmt_emits yes _ _ hyes) fun _ =>
          .words (fun _ => strung_word hother rfl) (.bind (stmt_emits no _ _ hno) fun _ =>
            .insert rfl rfl))
  | .assign s x y, i, ts, h => by
      obtain ⟨-, us, vs, rfl, hx, hy⟩ := h
      rw [stmt]
      exact Emits.bind (expr_emits x _ _ hx) fun _ =>
        .bind (.behind rfl hy (expr_emits y)) fun _ => .insert rfl rfl
  | .expr s e, i, ts, h => by
      rw [stmt]
      exact Emits.bind (expr_emits e _ _ h.2) fun _ => .insert rfl rfl
  | .binding s d, i, ts, h => by
      rw [stmt]
      exact Emits.bind (binding_emits h.2) fun _ => .insert rfl rfl

theorem stmts_each : ∀ (ss : List Surface.Stmt), ∀ x ∈ ss, ∀ i ts,
    x.spelled i ts → Emits l (stmt l x) i ts [] fun n => [.part n]
  | [] => List.forall_mem_nil _
  | x :: ss => List.forall_mem_cons.mpr ⟨stmt_emits x, stmts_each ss⟩

end

theorem stmt?_emits {o : Option Surface.Stmt}
    (h : Spelling.optional Surface.Stmt.spelled o i ts) :
    Emits l (stmt? l o) i ts [] fun n => n.toList.map .part :=
  .optional (g := stmt l) rfl (fun _ => rfl) h fun x _ => stmt_emits x _ _

theorem generics_emits {gs : List Surface.Name} (h : Surface.genericsSpelled gs i ts) :
    Emits l (generics l gs) i ts (Surface.genericAngles gs) (List.map .part) := by
  refine .nodes (g := fun x => insert (.generic (l.name x)) (l.site x.span)) (by rw [generics])
    (fun x xs => by rw [generics]) (Surface.strung_generics h) fun x _ i ts hx => ?_
  exact Emits.words (fun _ => strung_spelled hx) (.insert rfl rfl)

theorem param_emits {p : Surface.Param} (h : p.spelled i ts) :
    Emits l (param l p) i ts [] fun n => [.part n] := by
  obtain ⟨us, vs, rfl, hx, htype⟩ := h
  exact Emits.words (fun _ => strung_spelled hx)
    (.bind (ascription_emits htype) fun _ => .insert rfl rfl)

theorem params_emits {ps : List Surface.Param} (h : Surface.paramsSpelled ps i ts) :
    Emits l (params l ps) i ts [] (List.map .part) :=
  .nodes (by rw [params]) (fun p ps => by rw [params])
    (Surface.strung_between h rfl rfl fun _ _ => Surface.plain_listedTrailing)
      fun _ _ _ _ => param_emits

theorem effect_isShown (e : Effect) : (Surface.Effect.print e).isShown = true := by
  cases e <;> rfl

def variant (l : Layout) (v : Surface.Variant) : Lowering NodeId := do
  let b ← stmt l v.body
  insert (.variant (l.site v.effectSpan) v.effect b) (l.site v.span)

theorem variant_emits {v : Surface.Variant} (h : v.spelled i ts) :
    Emits l (variant l v) i ts [] fun n => [.part n] := by
  obtain ⟨-, us, vs, rfl, heffect, hbody⟩ := h
  exact Emits.words (fun _ => strung_word heffect (effect_isShown v.effect))
    (.bind (stmt_emits v.body _ _ hbody) fun _ => .insert rfl rfl)

theorem variants_emits {vs : List Surface.Variant}
    (h : (Spelling.all (vs.map Surface.Variant.spelled)).inBraces i ts) :
    Emits l (variants l vs) i ts [] (List.map .part) :=
  .nodes (g := variant l) (by rw [variants]) (fun v vs => by rw [variants]; rfl)
    (Surface.strung_between h rfl rfl fun _ _ => Surface.plain_all) fun _ _ _ _ => variant_emits

theorem fixity_isShown (f : Fixity) : (Surface.Fixity.print f).isShown = true := by
  cases f <;> rfl

theorem output_emits {o : Option Surface.TypeExpr}
    (h : Spelling.optional Surface.outputSpelled o i ts) :
    Emits l (typeExpr? l o) i ts [] fun n => n.toList.map .part :=
  .optional (g := typeExpr l) rfl (fun _ => rfl) h fun e _ he => .behind rfl he (typeExpr_emits e)

theorem product_emits {ms : List Surface.Decl} {s introducer : Site} {x : Name}
    {gs is : List NodeId} {as : List Nat} :
    EmitsAfter l (do
      let m ← memberwise ms
      insert (.product introducer x gs is m) s) i ts as
        (.word introducer "type" :: .name x :: (gs ++ is).map .part) ts as
          fun n => [.part n] := by
  intro t hacc
  have hkeeps := (memberwise_lays ms t .synthesized).1.keeps
  have hkept := hacc.mono fun _ _ _ _ _ hp => .one (hp.keeps hkeeps)
  have hinsert := EmitsAfter.insert (l := l) (k := .product introducer x gs is (memberwise ms t).1)
    (s := s) rfl rfl (memberwise ms t).2 hkept
  exact ⟨hkeeps.trans hinsert.1, hinsert.2⟩

theorem decls_emits {ds : List Surface.Decl} {as : List Nat}
    (h : Strung (Surface.spelt Surface.Decl.spelled Surface.Decl.angles) i ts as ds)
    (hds : ∀ d ∈ ds, ∀ i ts, d.spelled i ts →
      Emits l (decl l d) i ts d.angles fun n => [.part n]) :
    Emits l (decls l ds) i ts as (List.map .part) :=
  .nodes (by rw [decls]) (fun d ds => by rw [decls]) h hds

theorem members_strung {ms : List Surface.Decl}
    (h : (Spelling.items (Surface.Decl.spellings ms)).inBraces i ts) :
    Strung (Surface.spelt Surface.Decl.spelled Surface.Decl.angles) i ts
      (Surface.Decl.allAngles ms) ms := by
  rw [Surface.Decl.spellings_eq_map] at h
  rw [Surface.Decl.allAngles_eq_flatMap]
  exact Surface.strung_between h rfl rfl fun _ _ => Surface.strung_items

theorem function_emits {s k : Surface.Span} {x : Surface.Name} {gs : List Surface.Name}
    {ps : List Surface.Param} {t : Option Surface.TypeExpr} {body : Option Surface.Body}
    (h : (Surface.Decl.function s k x gs ps t body).spelled i ts) :
    Emits l (decl l (.function s k x gs ps t body)) i ts
      (Surface.Decl.function s k x gs ps t body).angles fun n => [.part n] := by
  obtain ⟨-, _, zs, rfl, ⟨_, ys, rfl, ⟨_, xs, rfl, ⟨_, ws, rfl, ⟨us, vs, rfl, hk, hx⟩, hgs⟩, hps⟩,
    ht⟩, hbody⟩ := h
  have hgs := generics_emits (l := l) hgs
  have hps := params_emits (l := l) hps
  have ht := output_emits (l := l) ht
  match body, hbody with
  | some (.bundle bs), hbody =>
      rw [decl]
      refine Emits.words (fun _ => strung_word hk rfl)
        (.words (fun _ => strung_spelledFunction hx) (.bind hgs fun _ =>
          .bind hps fun _ => .bind ht fun _ => .bind (variants_emits hbody) fun _ =>
            ?_))
      simp only [List.append_nil, List.nil_append]
      exact .insert (by simp [Kind.pieces, Token.display, Keyword.spelling]) rfl
  | some (.block b), hbody =>
      rw [decl]
      refine Emits.words (fun _ => strung_word hk rfl)
        (.words (fun _ => strung_spelledFunction hx) (.bind hgs fun _ =>
          .bind hps fun _ => .bind ht fun _ => .bind (stmt_emits b _ _ hbody) fun _ =>
            ?_))
      simp only [List.append_nil, List.nil_append]
      exact .insert (by simp [Kind.pieces, Token.display, Keyword.spelling]) rfl
  | none, hbody =>
      obtain rfl : zs = [] := hbody
      rw [decl, List.append_nil]
      refine Emits.words (fun _ => strung_word hk rfl)
        (.words (fun _ => strung_spelledFunction hx) (.bind hgs fun _ =>
          .bind hps fun _ => .bind ht fun _ => ?_))
      simp only [List.append_nil, List.nil_append]
      exact .insert (by simp [Kind.pieces, Token.display, Keyword.spelling]) rfl

mutual

theorem decl_emits : ∀ (d : Surface.Decl) (i : Nat) (ts : List Token),
    d.spelled i ts → Emits l (decl l d) i ts d.angles fun n => [.part n]
  | .space s k x ms, i, ts, h => by
      obtain ⟨-, _, ws, rfl, ⟨us, vs, rfl, hk, hx⟩, hms⟩ := h
      rw [decl]
      exact Emits.words (fun _ => strung_word hk rfl)
        (.words (fun _ => strung_spelled hx)
          (.bind (decls_emits (members_strung hms) (decls_each ms)) fun _ => .insert rfl rfl))
  | .product s k x gs ms, i, ts, h => by
      obtain ⟨-, _, xs, rfl, ⟨_, ws, rfl, ⟨us, vs, rfl, hk, hx⟩, hgs⟩, hms⟩ := h
      rw [decl]
      refine Emits.words (fun _ => strung_word hk rfl)
        (.words (fun _ => strung_spelled hx) (.bind (generics_emits hgs) fun _ =>
          .bind (decls_emits (members_strung hms) (decls_each ms)) fun _ => ?_))
      simpa [Surface.Decl.angles, Token.display, Keyword.spelling] using product_emits
  | .associated s k x, i, ts, h => by
      obtain ⟨-, us, vs, rfl, hk, hx⟩ := h
      rw [decl]
      exact Emits.words (fun _ => strung_word hk rfl)
        (.words (fun _ => strung_spelled hx) (.insert rfl rfl))
  | .extension s k t ms, i, ts, h => by
      obtain ⟨-, _, ws, rfl, ⟨us, vs, rfl, hk, ht⟩, hms⟩ := h
      rw [decl]
      exact Emits.words (fun _ => strung_word hk rfl)
        (.bind (typeExpr_emits t _ _ ht) fun _ =>
          .bind (decls_emits (members_strung hms) (decls_each ms)) fun _ => .insert rfl rfl)
  | .conformance s k t tts ms, i, ts, h => by
      obtain ⟨-, _, ys, rfl, ⟨_, xs, rfl, ⟨_, _, rfl, ⟨us, vs, rfl, hk, ht⟩, rfl⟩, htraits⟩,
        hms⟩ := h
      rw [decl]
      refine Emits.words (fun _ => strung_word hk rfl)
        (.bind (typeExpr_emits t _ _ ht) fun _ =>
          .words (fun _ => .hidden rfl .nil) (.bind (typeExprs_emits (Surface.plain_listed htraits)
            fun t _ => typeExpr_emits t) fun _ =>
              .bind (decls_emits (members_strung hms) (decls_each ms)) fun _ => .insert ?_ rfl))
      simp [Kind.pieces, Token.display, Keyword.spelling]
  | .trait s k x ms, i, ts, h => by
      obtain ⟨-, _, ws, rfl, ⟨us, vs, rfl, hk, hx⟩, hms⟩ := h
      rw [decl]
      exact Emits.words (fun _ => strung_word hk rfl)
        (.words (fun _ => strung_spelled hx)
          (.bind (decls_emits (members_strung hms) (decls_each ms)) fun _ => .insert rfl rfl))
  | .typeAlias s k x t, i, ts, h => by
      obtain ⟨-, _, ws, rfl, ⟨_, _, rfl, ⟨us, vs, rfl, hk, hx⟩, rfl⟩, ht⟩ := h
      rw [decl]
      exact Emits.words (fun _ => strung_word hk rfl)
        (.words (fun _ => strung_spelled hx) (.words (fun _ => .hidden rfl .nil)
          (.bind (typeExpr_emits t _ _ ht) fun _ => .insert rfl rfl)))
  | .operator s k f fs x, i, ts, h => by
      obtain ⟨-, _, ws, rfl, ⟨us, vs, rfl, hk, hf⟩, hx⟩ := h
      rw [decl]
      exact Emits.words (fun _ => strung_word hk rfl)
        (.words (fun _ => strung_word hf (fixity_isShown f))
          (.words (fun _ => strung_spelledOperator hx) (.insert rfl rfl)))
  | .function _ _ _ _ _ _ _, _, _, h => function_emits h
  | .init s k ps body, i, ts, h => by
      obtain ⟨-, _, ws, rfl, ⟨us, vs, rfl, hk, hps⟩, hbody⟩ := h
      rw [decl]
      refine Emits.words (fun _ => strung_word hk rfl)
        (.bind (params_emits hps) fun _ => .bind (stmt?_emits hbody) fun _ =>
          .insert ?_ rfl)
      simp [Kind.pieces, Token.display, Keyword.spelling]
  | .subscript s k x ps t body, i, ts, h => by
      obtain ⟨-, _, ys, rfl, ⟨_, xs, rfl, ⟨_, ws, rfl, ⟨us, vs, rfl, hk, hx⟩, hps⟩, ht⟩, hbody⟩ := h
      rw [decl]
      refine Emits.words (fun _ => strung_word hk rfl)
        (.words (fun _ => strung_optional hx fun _ => strung_spelled)
          (.bind (params_emits hps) fun _ => .bind (.behind rfl ht (typeExpr_emits t)) fun _ =>
            .bind (stmt?_emits hbody) fun _ => .insert ?_ rfl))
      simp [Kind.pieces, Token.display, Keyword.spelling]
  | .binding s d, i, ts, h => by
      rw [decl]
      exact binding_emits h.2

theorem decls_each : ∀ (ds : List Surface.Decl), ∀ d ∈ ds, ∀ i ts,
    d.spelled i ts → Emits l (decl l d) i ts d.angles fun n => [.part n]
  | [] => List.forall_mem_nil _
  | d :: ds => List.forall_mem_cons.mpr ⟨decl_emits d, decls_each ds⟩

end

theorem unit_shown {ds : List Surface.Decl} (h : Surface.fileSpelled ds 0 l.tokens) (t : Tree) :
    t.Keeps (unit l ds t).2 ∧
      l.Shown (unit l ds t).2 (unit l ds t).1 0 l.tokens (Surface.Decl.allAngles ds) := by
  rw [Surface.Decl.allAngles_eq_flatMap]
  obtain ⟨hkeeps, hds⟩ := decls_emits (Surface.strung_items h) (fun d _ => decl_emits d) t
  exact ⟨hkeeps.trans (Tree.keeps_insert _ _ _), Layout.shown_insert rfl hds⟩

end Lowering

namespace Tree

def Highlighted (t : Tree) (u : NodeId) : Prop :=
  ∃ l ds, l = Layout.ofFile (t.site u).file ∧ Surface.parse l.tokens = .ok ds ∧
    l.Shown t u 0 l.tokens (Surface.Decl.allAngles ds)

variable {base t t' : Tree} {u : NodeId}

theorem Highlighted.keeps (h : t.Highlighted u) (hkeeps : t.Keeps t') : t'.Highlighted u := by
  obtain ⟨l, ds, hl, hparse, hshown⟩ := h
  exact ⟨l, ds, by rw [hl, hkeeps.site_eq hshown.lt], hparse, hshown.keeps hkeeps⟩

theorem parseUnit_highlighted {f : File} (h : t.parseUnit f = .ok (u, t')) :
    t.Keeps t' ∧ t'.Highlighted u := by
  obtain ⟨-, -, hsite⟩ := parseUnit_lays h
  simp only [parseUnit] at h
  split at h
  · next ds hparse =>
      split at h
      · obtain ⟨hkeeps, hshown⟩ := Lowering.unit_shown (l := .ofFile f)
          (Surface.parse_spelled hparse) t
        rw [Except.ok.injEq] at h
        rw [h] at hkeeps hshown
        exact ⟨hkeeps, .ofFile f, ds, by rw [hsite]; rfl, hparse, hshown⟩
      · cases h
  · cases h

theorem parseUnits_highlighted (files : List File) (t : Tree) :
    t.Keeps (t.parseUnits files).2.2 ∧
      ∀ u ∈ (t.parseUnits files).1, (t.parseUnits files).2.2.Highlighted u := by
  induction files generalizing t with
  | nil => exact ⟨.refl t, by simp [parseUnits]⟩
  | cons f fs ih =>
      rw [parseUnits]
      split
      · next u t₁ hunit =>
          obtain ⟨hkeeps, hu⟩ := parseUnit_highlighted hunit
          obtain ⟨hkeeps', hus⟩ := ih t₁
          exact ⟨hkeeps.trans hkeeps', List.forall_mem_cons.mpr ⟨hu.keeps hkeeps', hus⟩⟩
      · exact ih t

theorem parseModule_units {name : String} {files : List File}
    (h : parseModule base name files = .ok t) : ∃ m, t.modules = base.modules ++ [m] ∧
      t.unitsOf m = ((extending base).parseUnits files).1 ∧
      ((extending base).parseUnits files).2.2.Keeps t := by
  obtain ⟨m, hadds⟩ := parseModule_addsModule h
  refine ⟨m, hadds.modules, ?_⟩
  simp only [parseModule] at h
  split at h
  · rw [Except.ok.injEq] at h
    generalize (extending base).parseUnits files = parsed at h ⊢
    obtain ⟨us, ds, t₁⟩ := parsed
    have hadd := keeps_addModule (t₁.insert (.module name us) .synthesized).2
      (t₁.insert (.module name us) .synthesized).1
    have hmodules : t.modules = t₁.modules ++ [(t₁.insert (.module name us) .synthesized).1] := by
      rw [← h]
      cases t₁ <;> rfl
    rw [h] at hadd
    have hlast : m = (t₁.insert (.module name us) .synthesized).1 := by
      simpa [hadds.modules] using congrArg List.getLast? hmodules
    rw [unitsOf, hlast, (kind_of_insert hadd).1]
    exact ⟨rfl, (t₁.keeps_insert _ _).trans hadd⟩
  · cases h

theorem parseModule_highlighted {name : String} {files : List File} (hbase : base.WellFormed)
    (h : parseModule base name files = .ok t) (hunits : ∀ u ∈ base.units, base.Highlighted u) :
    ∀ u ∈ t.units, t.Highlighted u := by
  obtain ⟨m, hmodules, hnew, hlater⟩ := parseModule_units h
  have hkeeps := (parseModule_growsInBlocks h).keeps
  obtain ⟨-, hfiles⟩ := parseUnits_highlighted files (extending base)
  intro u hu
  obtain ⟨m', hm', hu⟩ := List.mem_flatMap.mp hu
  rw [hmodules, List.mem_append, List.mem_singleton] at hm'
  rcases hm' with hm' | rfl
  · rw [unitsOf, hkeeps.kind_eq (hbase.modules_lt m' hm')] at hu
    exact (hunits u (mem_units hm' hu)).keeps hkeeps
  · rw [hnew] at hu
    exact (hfiles u hu).keeps hlater

theorem Parsed.highlighted (h : t.Parsed) : ∀ u ∈ t.units, t.Highlighted u := by
  induction h with
  | empty => exact fun u hu => absurd hu List.not_mem_nil
  | module hbase h ih => exact parseModule_highlighted hbase.wellFormed h ih

end Tree

end LanguageService
