import LanguageService.Proofs.Nesting
import LanguageService.Proofs.SpelledDecl

namespace LanguageService

open Surface (Spelling Between Spread)

def Layout.Words (l : Layout) (lo hi : Nat) (ps : List Piece) : Prop := ∀ t, l.Row t lo hi ps

section Words

variable {l : Layout} {lo hi : Nat} {p : Piece} {ps : List Piece}

theorem Layout.Words.widen {lo' hi' : Nat} (h : l.Words lo hi ps) (hlo : lo' ≤ lo)
    (hhi : hi ≤ hi') : l.Words lo' hi' ps :=
  fun t => (h t).widen hlo hhi

theorem Layout.Words.lt (h : l.Words lo hi [p]) : lo < hi := by
  obtain ⟨a, b, hlo, hab, -, hb⟩ := h .empty
  exact Nat.lt_of_le_of_lt hlo (Nat.lt_of_lt_of_le hab hb)

theorem words_of_word {s : Surface.Span} {t : Token}
    (h : Between l.tokens lo hi (.spanning s (.word t))) (ht : t.isError = false) :
    l.Words lo hi [.word (l.site s) t.display] := by
  obtain ⟨a, _, hlo, hhi, hheld, rfl, rfl⟩ := h
  exact fun _ => ⟨a, a + 1, hlo, Nat.lt_succ_self a, ⟨rfl, rfl, t, hheld, ht, rfl⟩, hhi⟩

theorem words_of_name {x : Surface.Name} {P : Spelling}
    (h : Between l.tokens lo hi (.spanning x.span P))
    (hP : ∀ i ts, P i ts → ∃ t, ts = [t] ∧ t.isName = true ∧ t.display = x.text) :
    l.Words lo hi [.name (l.name x)] := by
  obtain ⟨a, ts, hlo, hhi, hheld, hspan, hts⟩ := h
  obtain ⟨t, rfl, hname, hdisplay⟩ := hP a ts hts
  refine fun _ => ⟨a, a + 1, hlo, Nat.lt_succ_self a, ⟨rfl, ?_, t, hheld, hname, hdisplay⟩, hhi⟩
  rw [Layout.name, hspan, List.length_singleton]

theorem words_of_spelled {x : Surface.Name} (h : Between l.tokens lo hi x.spelled) :
    l.Words lo hi [.name (l.name x)] :=
  words_of_name h fun _ _ hts => ⟨_, hts, rfl, rfl⟩

theorem words_of_spelledOperator {x : Surface.Name} (h : Between l.tokens lo hi x.spelledOperator) :
    l.Words lo hi [.name (l.name x)] :=
  words_of_name h fun _ _ hts => ⟨_, hts, rfl, rfl⟩

theorem words_of_spelledValue {x : Surface.Name} (h : Between l.tokens lo hi x.spelledValue) :
    l.Words lo hi [.name (l.name x)] := by
  refine words_of_name h fun i ts hts => ?_
  rcases hts with hts | ⟨hself, hts⟩
  · exact ⟨_, hts, rfl, rfl⟩
  · exact ⟨_, hts, rfl, hself.symm⟩

theorem words_of_spelledFunction {x : Surface.Name} (h : Between l.tokens lo hi x.spelledFunction) :
    l.Words lo hi [.name (l.name x)] := by
  refine words_of_name h fun i ts hts => ?_
  rcases hts with hts | hts
  · exact ⟨_, hts, rfl, rfl⟩
  · exact ⟨_, hts, rfl, rfl⟩

end Words

namespace Lowering

variable {l : Layout} {lo hi : Nat}

theorem leaf_places (hl : l.Ordered) {k : Kind} {s : Surface.Span} {P : Spelling}
    (h : Between l.tokens lo hi (.spanning s P)) (hextras : k.extras = [])
    (hplain : k.isOrdinary = true)
    (hP : ∀ a b, Between l.tokens a b P → a < b ∧ l.Words a b k.pieces) :
    Places l (insert k (l.site s)) lo hi fun i => [.part i] := by
  obtain ⟨a, b, rfl, hlo, hhi, hsize, hbetween⟩ := h.spanning
  obtain ⟨hlt, hwords⟩ := hP a b hbetween
  refine Places.widen (PlacesAfter.places a ?_) hlo hhi
  exact .words hwords (.insert hl rfl rfl hextras hplain (Nat.le_refl _) (Nat.le_refl _) hlt hsize)

mutual

theorem typeExpr_places (hl : l.Ordered) : ∀ (e : Surface.TypeExpr) {lo hi : Nat},
    Between l.tokens lo hi e.spelled → Places l (typeExpr l e) lo hi fun i => [.part i]
  | .name s x, lo, hi, h => by
      rw [typeExpr]
      refine leaf_places hl h rfl rfl fun a b hx => ?_
      have hname := words_of_spelled hx
      exact ⟨hname.lt, hname⟩
  | .tuple s es, lo, hi, h => by
      obtain ⟨a, b, rfl, hlo, hhi, hsize, hes⟩ := Between.spanning h
      obtain ⟨hlt, hes⟩ := hes.inner
      rw [Surface.TypeExpr.spellings_eq_map] at hes
      rw [typeExpr]
      refine Places.widen (PlacesAfter.places a ?_) hlo hhi
      exact .bind (typeExprs_places hl es (Surface.spread_listedTrailing hes)) fun t =>
        .insert hl rfl (by simp [Kind.pieces]) rfl rfl (Nat.le_refl _) (Nat.le_refl _) hlt hsize

theorem typeExprs_places (hl : l.Ordered) : ∀ (es : List Surface.TypeExpr) {lo hi : Nat},
    Spread l.tokens Surface.TypeExpr.spelled lo hi es →
      Places l (typeExprs l es) lo hi (List.map .part)
  | [], lo, hi, h => by
      rw [typeExprs]
      exact .pure rfl h
  | e :: es, lo, hi, h => by
      obtain ⟨mid, he, hes⟩ := h
      rw [typeExprs]
      refine PlacesAfter.places lo (.bind (typeExpr_places hl e he) fun t =>
        .bind (typeExprs_places hl es hes) fun t' => ?_)
      exact .pure (by simp) (Nat.le_refl _) (Nat.le_refl _)

end

theorem typeExpr?_places (hl : l.Ordered) {o : Option Surface.TypeExpr}
    (h : Spread l.tokens Surface.TypeExpr.spelled lo hi o.toList) :
    Places l (typeExpr? l o) lo hi fun i => i.toList.map .part := by
  cases o with
  | none => exact .pure rfl h
  | some e =>
      obtain ⟨mid, he, hmid⟩ := h
      refine PlacesAfter.places lo (.bind (typeExpr_places hl e he) fun t => ?_)
      exact .pure (by simp) (Nat.le_refl _) hmid

theorem words_of_label {o : Option Surface.Name}
    (h : Between l.tokens lo hi (.optional Surface.labelSpelled o)) :
    l.Words lo hi ((o.map l.name).toList.map .name) := by
  cases o with
  | none => exact fun _ => h.le
  | some x =>
      obtain ⟨mid, hx, hcolon⟩ := Between.append h
      exact (words_of_spelled hx).widen (Nat.le_refl _) hcolon.le

mutual

theorem expr_places (hl : l.Ordered) : ∀ (e : Surface.Expr) {lo hi : Nat},
    Between l.tokens lo hi e.spelled → Places l (expr l e) lo hi fun i => [.part i]
  | .literal s (.int x), lo, hi, h => by
      rw [expr]
      exact leaf_places hl h rfl rfl fun a b hx =>
        ⟨Between.word hx.enclosed, fun _ => hx.enclosed.le⟩
  | .literal s (.float x), lo, hi, h => by
      rw [expr]
      exact leaf_places hl h rfl rfl fun a b hx =>
        ⟨Between.word hx.enclosed, fun _ => hx.enclosed.le⟩
  | .literal s (.string x), lo, hi, h => by
      rw [expr]
      exact leaf_places hl h rfl rfl fun a b hx =>
        ⟨Between.word hx.enclosed, fun _ => hx.enclosed.le⟩
  | .literal s (.bool x), lo, hi, h => by
      rw [expr]
      exact leaf_places hl h rfl rfl fun a b hx =>
        ⟨Between.word hx.enclosed, fun _ => hx.enclosed.le⟩
  | .name s none x, lo, hi, h => by
      rw [expr]
      refine leaf_places hl h rfl rfl fun a b hx => ?_
      have hname := words_of_spelledValue (x := x) hx.enclosed
      exact ⟨hname.lt, hname⟩
  | .name s (some d) x, lo, hi, h => by
      obtain ⟨a, b, hs, hlo, hhi, hsize, hcore⟩ := Between.spanning h
      obtain ⟨mid, hd, hmember⟩ := Between.append hcore.enclosed
      obtain ⟨mid', hdot, hx⟩ := Between.append hmember
      have hname := (words_of_spelled hx).widen hdot.le (Nat.le_refl _)
      have hlt := Nat.lt_of_le_of_lt hd.le hname.lt
      rw [expr]
      refine Places.widen (PlacesAfter.places a ?_) hlo hhi
      exact .bind (expr_places hl d hd.of_operand) fun t => .words hname
        (.insert hl hs rfl rfl rfl (Nat.le_refl _) (Nat.le_refl _) hlt hsize)
  | .call s c as, lo, hi, h => by
      obtain ⟨a, b, hs, hlo, hhi, hsize, hcore⟩ := Between.spanning h
      obtain ⟨mid, hc, has⟩ := Between.append hcore.enclosed
      obtain ⟨hlt, has⟩ := has.inner
      rw [Surface.Expr.argSpellings_eq_map] at has
      have hle := hc.le
      rw [expr]
      refine Places.widen (PlacesAfter.places a ?_) hlo hhi
      exact .bind (expr_places hl c hc.of_operand) fun t =>
        .bind (args_places hl as (Surface.spread_listedTrailing has)) fun t' =>
          .insert hl hs rfl rfl rfl (Nat.le_refl _) (Nat.le_refl _) (by omega) hsize
  | .subscript s c as, lo, hi, h => by
      obtain ⟨a, b, hs, hlo, hhi, hsize, hcore⟩ := Between.spanning h
      obtain ⟨mid, hc, has⟩ := Between.append hcore.enclosed
      obtain ⟨hlt, has⟩ := has.inner
      rw [Surface.Expr.argSpellings_eq_map] at has
      have hle := hc.le
      rw [expr]
      refine Places.widen (PlacesAfter.places a ?_) hlo hhi
      exact .bind (expr_places hl c hc.of_operand) fun t =>
        .bind (args_places hl as (Surface.spread_listedTrailing has)) fun t' =>
          .insert hl hs rfl rfl rfl (Nat.le_refl _) (Nat.le_refl _) (by omega) hsize
  | .binary s lhs op rhs, lo, hi, h => by
      obtain ⟨a, b, hs, hlo, hhi, hsize, hcore⟩ := Between.spanning h
      obtain ⟨mid, hlhs, hrest⟩ := Between.append (hcore.enclosed.mono fun _ _ hgiven => hgiven.2)
      obtain ⟨mid', hop, hrhs⟩ := Between.append hrest
      have hname := words_of_spelledOperator hop
      have hlt := hname.lt
      have hle := hlhs.le
      have hle' := hrhs.le
      rw [expr]
      refine Places.widen (PlacesAfter.places a ?_) hlo hhi
      exact .bind (expr_places hl lhs hlhs.of_operand) fun t => .words hname
        (.bind (expr_places hl rhs hrhs.of_operand) fun t' =>
          .insert hl hs rfl rfl rfl (Nat.le_refl _) (Nat.le_refl _) (by omega) hsize)
  | .tuple s es, lo, hi, h => by
      obtain ⟨a, b, hs, hlo, hhi, hsize, hcore⟩ := Between.spanning h
      obtain ⟨hlt, hes⟩ := Between.inner (hcore.enclosed.mono fun _ _ hgiven => hgiven.2)
      rw [Surface.Expr.spellings_eq_map] at hes
      rw [expr]
      refine Places.widen (PlacesAfter.places a ?_) hlo hhi
      exact .bind (exprs_places hl es (Surface.spread_listedTrailing hes)) fun t =>
        .insert hl hs rfl rfl rfl (Nat.le_refl _) (Nat.le_refl _) hlt hsize

theorem args_places (hl : l.Ordered) : ∀ (as : List (Option Surface.Name × Surface.Expr))
    {lo hi : Nat}, Spread l.tokens Surface.Arg.spelled lo hi as →
      Places l (args l as) lo hi fun is => is.flatMap Piece.ofArg
  | [], lo, hi, h => by
      rw [args]
      exact .pure rfl h
  | (label, e) :: as, lo, hi, h => by
      obtain ⟨mid, ha, has⟩ := h
      obtain ⟨mid', hlabel, he⟩ := Between.append ha
      rw [args]
      refine PlacesAfter.places lo (.words (words_of_label hlabel)
        (.bind (expr_places hl e he) fun t => .bind (args_places hl as has) fun t' => ?_))
      exact .pure (by simp [Piece.ofArg]) (Nat.le_refl _) (Nat.le_refl _)

theorem exprs_places (hl : l.Ordered) : ∀ (es : List Surface.Expr) {lo hi : Nat},
    Spread l.tokens Surface.Expr.spelled lo hi es → Places l (exprs l es) lo hi (List.map .part)
  | [], lo, hi, h => by
      rw [exprs]
      exact .pure rfl h
  | e :: es, lo, hi, h => by
      obtain ⟨mid, he, hes⟩ := h
      rw [exprs]
      refine PlacesAfter.places lo (.bind (expr_places hl e he) fun t =>
        .bind (exprs_places hl es hes) fun t' => ?_)
      exact .pure (by simp) (Nat.le_refl _) (Nat.le_refl _)

end

theorem expr?_places (hl : l.Ordered) {o : Option Surface.Expr}
    (h : Spread l.tokens Surface.Expr.spelled lo hi o.toList) :
    Places l (expr? l o) lo hi fun i => i.toList.map .part := by
  cases o with
  | none => exact .pure rfl h
  | some e =>
      obtain ⟨mid, he, hmid⟩ := h
      refine PlacesAfter.places lo (.bind (expr_places hl e he) fun t => ?_)
      exact .pure (by simp) (Nat.le_refl _) hmid

theorem Places.lt {m : Lowering NodeId} (h : Places l m lo hi fun i => [.part i]) : lo < hi := by
  obtain ⟨a, b, hlo, hab, -, hb⟩ := (h .empty).2
  exact Nat.lt_of_le_of_lt hlo (Nat.lt_of_lt_of_le hab hb)

theorem between_span {P : Spelling} {s : Surface.Span} (h : Between l.tokens lo hi P)
    (hP : ∀ i ts, P i ts → s = ⟨i, i + ts.length⟩) :
    ∃ a b, s = ⟨a, b⟩ ∧ lo ≤ a ∧ b ≤ hi ∧ b ≤ l.tokens.length ∧ Between l.tokens a b P :=
  Between.spanning (h.mono fun i ts hts => ⟨hP i ts hts, hts⟩)

theorem name_places (hl : l.Ordered) {x : Surface.Name} (h : Between l.tokens lo hi x.spelled)
    {k : Kind} (hpieces : k.pieces = [.name (l.name x)]) (hextras : k.extras = [])
    (hplain : k.isOrdinary = true) :
    Places l (insert k (l.site x.span)) lo hi fun i => [.part i] := by
  obtain ⟨a, b, hspan, hlo, hhi, hsize, hx⟩ := between_span h fun _ _ hx => hx.1
  have hname := words_of_spelled hx
  refine Places.widen (PlacesAfter.places a ?_) hlo hhi
  exact .words hname
    (.insert hl hspan hpieces hextras hplain (Nat.le_refl _) (Nat.le_refl _) hname.lt hsize)

theorem span_pattern (p : Surface.Pattern) {i : Nat} {ts : List Token} (h : p.spelled i ts) :
    p.span = ⟨i, i + ts.length⟩ := by
  cases p <;> exact h.1

theorem span_typeExpr (e : Surface.TypeExpr) {i : Nat} {ts : List Token} (h : e.spelled i ts) :
    e.span = ⟨i, i + ts.length⟩ := by
  cases e <;> exact h.1

mutual

theorem pattern_places (hl : l.Ordered) : ∀ (p : Surface.Pattern) {lo hi : Nat},
    Between l.tokens lo hi p.spelled → Places l (pattern l p) lo hi fun i => [.part i]
  | .name s x, lo, hi, h => by
      obtain ⟨a, b, hs, hlo, hhi, hsize, hx⟩ := Between.spanning h
      have hvar := name_places hl hx (k := .var (l.name x)) rfl rfl rfl
      rw [pattern]
      refine Places.widen (PlacesAfter.places a ?_) hlo hhi
      exact .bind hvar fun t => .insert hl hs rfl rfl rfl (Nat.le_refl _) (Nat.le_refl _) hvar.lt
        hsize
  | .tuple s es, lo, hi, h => by
      obtain ⟨a, b, hs, hlo, hhi, hsize, hes⟩ := Between.spanning h
      obtain ⟨hlt, hes⟩ := hes.inner
      rw [Surface.Pattern.spellings_eq_map] at hes
      rw [pattern]
      refine Places.widen (PlacesAfter.places a ?_) hlo hhi
      exact .bind (patterns_places hl es (Surface.spread_listedTrailing hes)) fun t =>
        .insert hl hs rfl rfl rfl (Nat.le_refl _) (Nat.le_refl _) hlt hsize
  | .wildcard s, lo, hi, h => by
      rw [pattern]
      exact leaf_places hl h rfl rfl fun a b hx => ⟨hx.word, fun _ => hx.le⟩

theorem patterns_places (hl : l.Ordered) : ∀ (ps : List Surface.Pattern) {lo hi : Nat},
    Spread l.tokens Surface.Pattern.spelled lo hi ps →
      Places l (patterns l ps) lo hi (List.map .part)
  | [], lo, hi, h => by
      rw [patterns]
      exact .pure rfl h
  | p :: ps, lo, hi, h => by
      obtain ⟨mid, hp, hps⟩ := h
      rw [patterns]
      refine PlacesAfter.places lo (.bind (pattern_places hl p hp) fun t =>
        .bind (patterns_places hl ps hps) fun t' => ?_)
      exact .pure (by simp) (Nat.le_refl _) (Nat.le_refl _)

end

theorem reach_places (hl : l.Ordered) {start : Nat} {s names : Surface.Span}
    {o : Option Surface.TypeExpr} (hs : s.start = start) (hnames : names.stop = lo)
    (hstart : start ≤ lo) (hsize : lo ≤ l.tokens.length)
    (h : Between l.tokens lo hi (.optional Surface.ascriptionSpelled o)) :
    ∃ r, s.to ((o.map (·.span)).getD names) = ⟨start, r⟩ ∧ lo ≤ r ∧ r ≤ hi ∧
      r ≤ l.tokens.length ∧ Places l (typeExpr? l o) lo r fun i => i.toList.map .part := by
  cases o with
  | none =>
      refine ⟨lo, ?_, Nat.le_refl _, h.le, hsize, typeExpr?_places hl (Nat.le_refl lo)⟩
      simp only [Option.map_none, Option.getD_none, Surface.Span.to, hs, hnames]
      rw [Nat.max_eq_left hstart]
  | some t =>
      obtain ⟨mid, hcolon, ht⟩ := Between.append h
      obtain ⟨a, b, hspan, ha, hb, hsize, ht⟩ := between_span ht fun _ _ => span_typeExpr t
      have hcolon := hcolon.le
      have hab := ht.le
      refine ⟨b, ?_, by omega, hb, hsize, typeExpr?_places hl ⟨b, ht.widen (by omega)
        (Nat.le_refl _), Nat.le_refl b⟩⟩
      simp only [Option.map_some, Option.getD_some, Surface.Span.to, hs, hspan]
      rw [Nat.max_eq_left (by omega)]

theorem spread_assigned {o : Option Surface.Expr}
    (h : Between l.tokens lo hi (.optional Surface.assignedSpelled o)) :
    Spread l.tokens Surface.Expr.spelled lo hi o.toList := by
  refine (Surface.spread_optional h).mono fun e lo hi he => ?_
  obtain ⟨mid, hassign, he⟩ := Between.append (Q := e.spelled) he
  exact he.widen hassign.le (Nat.le_refl _)

theorem introducer_not_error (i : Introducer) : (Surface.Introducer.print i).isError = false := by
  cases i <;> rfl

theorem binding_places (hl : l.Ordered) {s : Surface.Span} {b : Surface.Binding}
    (hs : s = ⟨lo, hi⟩) (hsize : hi ≤ l.tokens.length) (h : Between l.tokens lo hi b.spelled) :
    Places l (binding l (l.site s) b) lo hi fun i => [.part i] := by
  obtain ⟨m₃, h, hvalue⟩ := Between.append h
  obtain ⟨m₂, h, htype⟩ := Between.append h
  obtain ⟨m₁, hintroducer, hpattern⟩ := Between.append h
  obtain ⟨a, c, hspan, ha, hc, -, hintroducer⟩ := between_span hintroducer fun _ _ h => h.1
  obtain ⟨p, q, hnames, hp, hq, hsize', hpattern⟩ :=
    between_span hpattern fun _ _ => span_pattern _
  have hmark := words_of_word hintroducer (introducer_not_error b.introducer)
  have hac := hmark.lt
  have hpq := hpattern.le
  have hstart : b.introducerSpan.start = a := by rw [hspan]
  have hstop : b.pattern.span.stop = q := by rw [hnames]
  obtain ⟨r, hreach, hqr, hr, -, htype⟩ := reach_places hl hstart hstop (by omega) hsize'
    (htype.widen hq (Nat.le_refl _))
  have hvalue := (spread_assigned hvalue).widen hr (Nat.le_refl _)
  have hle := hvalue.le
  refine PlacesAfter.places a (.words hmark (.bind ((pattern_places hl _ hpattern).widen (by omega)
    (Nat.le_refl _)) fun _ => .bind htype fun _ => .andThen (.insert hl hreach rfl rfl rfl
      (Nat.le_refl _) (Nat.le_refl _) (by omega) (by omega)) fun _ => ?_))
  exact .bind (expr?_places hl hvalue) fun _ => .insert hl hs rfl rfl rfl ha (Nat.le_refl _)
    (by omega) hsize

end Lowering

end LanguageService
