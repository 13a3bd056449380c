import LanguageService.Proofs.MarkSites
import LanguageService.Proofs.Strung

namespace LanguageService

open Surface (Spelling Strung plainly)
open Highlight (marksAt)

namespace Layout

/-- The mark is on a word of the file. If that is a literal, the mark is on the parentheses around
it as well. -/
def Lies (l : Layout) (m : Mark) (i : Nat) (ts : List Token) (as : List Nat) : Prop :=
  as = [] ∧ m.site = l.site ⟨i, i + ts.length⟩ ∧
    ∃ t n, Spelling.layers (.word t) n i ts ∧ t.isShown = true ∧ (n = 0 ∨ t.isLiteral = true)

/-- In all trees that keep a node, its marks and those of the nodes below it are strung on these
tokens. -/
structure Shown (l : Layout) (t : Tree) (n : NodeId) (i : Nat) (ts : List Token) (as : List Nat) :
    Prop where
  lt : n < t.size
  strung : ∀ t', t.Keeps t' → ∀ fuel, n < fuel → ∀ s, Strung l.Lies i ts as (marksAt t' fuel s n)

def Bears (l : Layout) (t : Tree) : Piece → Nat → List Token → List Nat → Prop
  | .part n, i, ts, as => l.Shown t n i ts as
  | p, i, ts, as => as = [] ∧ p.site t = l.site ⟨i, i + ts.length⟩ ∧
      ∃ k, ts = [k] ∧ k.isShown = true

variable {l : Layout} {t t' : Tree} {n : NodeId} {p : Piece} {i : Nat} {ts : List Token}
  {as : List Nat}

theorem Shown.keeps (h : l.Shown t n i ts as) (hkeeps : t.Keeps t') : l.Shown t' n i ts as where
  lt := Nat.lt_of_lt_of_le h.lt hkeeps.size_le
  strung := fun t₁ h₁ => h.strung t₁ (hkeeps.trans h₁)

theorem Bears.keeps (h : l.Bears t p i ts as) (hkeeps : t.Keeps t') : l.Bears t' p i ts as := by
  cases p with
  | part n => exact Shown.keeps h hkeeps
  | word s w => exact h
  | name x => exact h

end Layout

theorem Layout.strung_of_shows {l : Layout} {t t' : Tree} {fuel : Nat} {x? : Option Name}
    {ps : List Piece} {ms : List Mark} {i : Nat} {ts : List Token} {as : List Nat}
    (h : Strung (l.Bears t) i ts as ps) (hshows : Highlight.Shows t' fuel x? ps ms)
    (hkeeps : t.Keeps t') (hfuel : t.size ≤ fuel) : Strung l.Lies i ts as ms := by
  induction h generalizing ms with
  | nil =>
      cases hshows
      exact .nil
  | hidden ht _ ih => exact .hidden ht (ih hshows)
  | angle ht _ ih => exact .angle ht (ih hshows)
  | item he _ ih =>
      cases hshows with
      | word hrest | used hrest =>
          obtain ⟨has, hsite, k, rfl, hk⟩ := he
          exact .item ⟨has, hsite, k, 0, rfl, hk, .inl rfl⟩ (ih hrest)
      | declared _ hx hrest =>
          obtain ⟨has, hsite, k, rfl, hk⟩ := he
          exact .item ⟨has, hx.trans hsite, k, 0, rfl, hk, .inl rfl⟩ (ih hrest)
      | part s hrest =>
          exact (he.strung t' hkeeps fuel (Nat.lt_of_lt_of_le he.lt hfuel) s).append (ih hrest)

section Insert

variable {l : Layout} {t : Tree} {i : Nat} {ts : List Token} {as : List Nat} {k : Kind} {s : Site}

theorem Tree.kind_of_insert {t' : Tree} (h : (t.insert k s).2.Keeps t') :
    t'.kind (t.insert k s).1 = k ∧ t'.site (t.insert k s).1 = s := by
  have hlt : (t.insert k s).1 < (t.insert k s).2.size := by
    rw [fst_insert, size_insert]
    exact Nat.lt_succ_self _
  rw [h.kind_eq hlt, h.site_eq hlt, fst_insert, kind_insert, site_insert, if_pos rfl, if_pos rfl]
  exact ⟨rfl, rfl⟩

theorem Layout.shown_insert (hk : k.isLiteral = false)
    (h : Strung (l.Bears t) i ts as k.pieces) :
    l.Shown (t.insert k s).2 (t.insert k s).1 i ts as where
  lt := by
    rw [Tree.fst_insert, Tree.size_insert]
    exact Nat.lt_succ_self _
  strung := by
    intro t' hkeeps fuel hfuel s'
    have hkind := (Tree.kind_of_insert hkeeps).1
    rw [Tree.fst_insert] at hfuel hkind ⊢
    obtain ⟨fuel, rfl⟩ := Nat.exists_eq_add_one.mpr (Nat.zero_lt_of_lt hfuel)
    have hshows : Highlight.Shows t' fuel (t'.kind t.size).declares (t'.kind t.size).pieces
        (Highlight.marksAt t' (fuel + 1) s' t.size) := Highlight.marksAt_shows (hkind ▸ hk)
    rw [hkind] at hshows
    exact strung_of_shows h hshows ((t.keeps_insert k s).trans hkeeps) (Nat.le_of_lt_succ hfuel)

theorem Layout.shown_literal (hk : k.isLiteral = true) {v : Token} (hv : v.isLiteral = true)
    {n : Nat} (h : Spelling.layers (.word v) n i ts) (hs : s = l.site ⟨i, i + ts.length⟩) :
    l.Shown (t.insert k s).2 (t.insert k s).1 i ts [] where
  lt := by
    rw [Tree.fst_insert, Tree.size_insert]
    exact Nat.lt_succ_self _
  strung := by
    intro t' hkeeps fuel hfuel s'
    obtain ⟨hkind, hsite⟩ := Tree.kind_of_insert hkeeps
    obtain ⟨fuel, rfl⟩ := Nat.exists_eq_add_one.mpr (Nat.zero_lt_of_lt hfuel)
    generalize (t.insert k s).1 = j at hkind hsite
    obtain ⟨kind, hmarks⟩ : ∃ kind, Highlight.marksAt t' (fuel + 1) s' j =
        [Highlight.plain kind (t'.site j)] := Highlight.marksAt_of_isLiteral (hkind ▸ hk)
    rw [hmarks, hsite]
    exact .one ⟨rfl, hs, v, n, h, Token.isShown_of_isLiteral hv, .inr hv⟩

end Insert

namespace Lowering

variable {α β γ : Type} {l : Layout} {i : Nat} {ts us vs : List Token} {as bs cs : List Nat}
  {acc : List Piece}

def Emits (l : Layout) (m : Lowering α) (i : Nat) (ts : List Token) (as : List Nat)
    (out : α → List Piece) : Prop :=
  ∀ t, t.Keeps (m t).2 ∧ Strung (l.Bears (m t).2) i ts as (out (m t).1)

/-- The same of what is left of a lowering after the pieces `acc`, which have the tokens `us`. -/
def EmitsAfter (l : Layout) (m : Lowering α) (i : Nat) (us : List Token) (bs : List Nat)
    (acc : List Piece) (ts : List Token) (as : List Nat) (out : α → List Piece) : Prop :=
  ∀ t, Strung (l.Bears t) i us bs acc →
    t.Keeps (m t).2 ∧ Strung (l.Bears (m t).2) i ts as (out (m t).1)

variable {m : Lowering α} {f : α → Lowering β} {out q : α → List Piece} {out' : β → List Piece}

theorem EmitsAfter.emits (h : EmitsAfter l m i [] [] [] ts as out) : Emits l m i ts as out :=
  fun t => h t .nil

theorem EmitsAfter.bind (hm : Emits l m (i + us.length) vs cs q)
    (hf : ∀ t, EmitsAfter l (f (m t).1) i (us ++ vs) (bs ++ cs) (acc ++ q (m t).1) ts as out') :
    EmitsAfter l (m >>= f) i us bs acc ts as out' := by
  intro t hacc
  obtain ⟨hkeeps, hnew⟩ := hm t
  have hold := hacc.mono fun _ _ _ _ _ hp => .one (hp.keeps hkeeps)
  obtain ⟨hkeeps', hresult⟩ := hf t (m t).2 (hold.append hnew)
  exact ⟨hkeeps.trans hkeeps', hresult⟩

theorem EmitsAfter.words {ps : List Piece} (hps : ∀ t, Strung (l.Bears t) (i + us.length) vs cs ps)
    (hm : EmitsAfter l m i (us ++ vs) (bs ++ cs) (acc ++ ps) ts as out) :
    EmitsAfter l m i us bs acc ts as out :=
  fun t hacc => hm t (hacc.append (hps t))

theorem EmitsAfter.andThen (hm : EmitsAfter l m i us bs acc vs cs q)
    (hf : ∀ t, EmitsAfter l (f (m t).1) i vs cs (q (m t).1) ts as out') :
    EmitsAfter l (m >>= f) i us bs acc ts as out' := by
  intro t hacc
  obtain ⟨hkeeps, hnew⟩ := hm t hacc
  obtain ⟨hkeeps', hresult⟩ := hf t (m t).2 hnew
  exact ⟨hkeeps.trans hkeeps', hresult⟩

theorem EmitsAfter.pure {a : α} (h : out a = acc) :
    EmitsAfter l (pure a) i us bs acc us bs out := by
  intro t hacc
  refine ⟨.refl t, ?_⟩
  rwa [← h] at hacc

theorem EmitsAfter.insert {k : Kind} {s : Site} (hpieces : k.pieces = acc)
    (hk : k.isLiteral = false) :
    EmitsAfter l (insert k s) i us bs acc us bs fun n => [.part n] := by
  intro t hacc
  rw [← hpieces] at hacc
  exact ⟨t.keeps_insert k s, .one (Layout.shown_insert hk hacc)⟩

theorem Emits.pure {a : α} (h : out a = []) : Emits l (Pure.pure a) i [] [] out :=
  (EmitsAfter.pure h).emits

theorem Emits.bind (hm : Emits l m i us bs q)
    (hf : ∀ t, EmitsAfter l (f (m t).1) i us bs (q (m t).1) ts as out') :
    Emits l (m >>= f) i ts as out' := by
  intro t
  obtain ⟨hkeeps, hnew⟩ := hm t
  obtain ⟨hkeeps', hresult⟩ := hf t (m t).2 hnew
  exact ⟨hkeeps.trans hkeeps', hresult⟩

theorem Emits.words {ps : List Piece} (hps : ∀ t, Strung (l.Bears t) i us bs ps)
    (hm : EmitsAfter l m i us bs ps ts as out) : Emits l m i ts as out :=
  fun t => hm t (hps t)

theorem Emits.hidden {k : Token} (h : Emits l m (i + 1) ts as out) (hk : k.isShown = false) :
    Emits l m i (k :: ts) as out :=
  fun t => ⟨(h t).1, .hidden hk (h t).2⟩

theorem Emits.angle {k : Token} (h : Emits l m (i + 1) ts as out)
    (hk : k = .op "<" ∨ k = .op ">") : Emits l m i (k :: ts) (i :: as) out :=
  fun t => ⟨(h t).1, .angle hk (h t).2⟩

theorem Emits.after_hidden {k : Token} (h : Emits l m i ts as out) (hk : k.isShown = false) :
    Emits l m i (ts ++ [k]) as out :=
  fun t => ⟨(h t).1, (h t).2.after_hidden hk⟩

theorem Emits.list {P : γ → Spelling} {angles : γ → List Nat} {g : γ → Lowering α}
    {gs : List γ → Lowering (List α)} (hnil : gs [] = Pure.pure [])
    (hcons : ∀ e es, gs (e :: es) = do
      let a ← g e
      let as ← gs es
      return a :: as)
    {es : List γ} (h : Strung (Surface.spelt P angles) i ts as es)
    (hes : ∀ e ∈ es, ∀ i ts, P e i ts → Emits l (g e) i ts (angles e) out) :
    Emits l (gs es) i ts as (List.flatMap out) := by
  induction h with
  | nil =>
      rw [hnil]
      exact .pure rfl
  | hidden hk _ ih => exact (ih hes).hidden hk
  | angle hk _ ih => exact (ih hes).angle hk
  | @item i us vs bs cs e es he _ ih =>
      obtain ⟨he, rfl⟩ := he
      rw [hcons]
      refine Emits.bind (hes e List.mem_cons_self _ _ he) fun t =>
        .bind (ih fun e he => hes e (List.mem_cons_of_mem _ he)) fun t' => ?_
      exact .pure rfl

theorem Emits.nodes {P : γ → Spelling} {angles : γ → List Nat} {g : γ → Lowering NodeId}
    {gs : List γ → Lowering (List NodeId)} (hnil : gs [] = Pure.pure [])
    (hcons : ∀ e es, gs (e :: es) = do
      let a ← g e
      let as ← gs es
      return a :: as)
    {es : List γ} (h : Strung (Surface.spelt P angles) i ts as es)
    (hes : ∀ e ∈ es, ∀ i ts, P e i ts → Emits l (g e) i ts (angles e) fun n => [.part n]) :
    Emits l (gs es) i ts as (List.map .part) := by
  rw [show List.map Piece.part = List.flatMap fun n => [.part n] from
    funext fun is => List.map_eq_flatMap]
  exact .list hnil hcons h hes

theorem Emits.optional {P : γ → Spelling} {g : γ → Lowering NodeId}
    {go : Option γ → Lowering (Option NodeId)} (hnone : go none = Pure.pure none)
    (hsome : ∀ e, go (some e) = do return some (← g e)) {o : Option γ}
    (h : Spelling.optional P o i ts)
    (ho : ∀ e ∈ o, P e i ts → Emits l (g e) i ts [] fun n => [.part n]) :
    Emits l (go o) i ts [] fun n => n.toList.map .part := by
  cases o with
  | none =>
      obtain rfl : ts = [] := h
      rw [hnone]
      exact .pure rfl
  | some e =>
      rw [hsome]
      exact Emits.bind (ho e rfl h) fun t => .pure rfl

theorem Emits.layers {P : Spelling} {n : Nat} (h : P.layers n i ts)
    (hP : ∀ j us, P j us → Emits l m j us [] out) : Emits l m i ts [] out := by
  induction n generalizing i ts with
  | zero => exact hP i ts h
  | succ n ih =>
      obtain ⟨_, _, rfl, ⟨_, _, rfl, rfl, us, vs, rfl, hus, hvs⟩, rfl⟩ := h
      refine Emits.after_hidden (.hidden ?_ rfl) rfl
      rcases hvs with rfl | rfl
      · rw [List.append_nil]
        exact ih hus
      · exact (ih hus).after_hidden rfl

theorem Emits.enclosed {P : Spelling} (h : P.enclosed i ts)
    (hP : ∀ j us, P j us → Emits l m j us [] out) : Emits l m i ts [] out := by
  obtain ⟨n, hn⟩ := h
  exact .layers hn hP

section Words

variable {t : Tree} {x : Surface.Name}

theorem strung_word {s : Surface.Span} {k : Token} (h : Spelling.spanning s (.word k) i ts)
    (hk : k.isShown = true) : Strung (l.Bears t) i ts [] [.word (l.site s) k.display] := by
  obtain ⟨rfl, rfl⟩ := h
  exact .one ⟨rfl, rfl, k, rfl, hk⟩

theorem strung_name {P : Spelling} (h : Spelling.spanning x.span P i ts)
    (hP : P i ts → ∃ k, ts = [k] ∧ k.isShown = true) :
    Strung (l.Bears t) i ts [] [.name (l.name x)] :=
  .one ⟨rfl, congrArg l.site h.1, hP h.2⟩

theorem strung_spelled (h : x.spelled i ts) : Strung (l.Bears t) i ts [] [.name (l.name x)] :=
  strung_name h fun hx => ⟨_, hx, rfl⟩

theorem strung_spelledOperator (h : x.spelledOperator i ts) :
    Strung (l.Bears t) i ts [] [.name (l.name x)] :=
  strung_name h fun hx => ⟨_, hx, rfl⟩

theorem strung_spelledValue (h : x.spelledValue i ts) :
    Strung (l.Bears t) i ts [] [.name (l.name x)] := by
  refine strung_name h fun hx => ?_
  rcases hx with hx | ⟨-, hx⟩ <;> exact ⟨_, hx, rfl⟩

theorem strung_spelledFunction (h : x.spelledFunction i ts) :
    Strung (l.Bears t) i ts [] [.name (l.name x)] := by
  refine strung_name h fun hx => ?_
  rcases hx with hx | hx <;> exact ⟨_, hx, rfl⟩

theorem strung_optional {P : Surface.Name → Spelling} {o : Option Surface.Name}
    (h : Spelling.optional P o i ts)
    (hP : ∀ x, P x i ts → Strung (l.Bears t) i ts [] [.name (l.name x)]) :
    Strung (l.Bears t) i ts [] ((o.map l.name).toList.map .name) := by
  cases o with
  | none =>
      obtain rfl : ts = [] := h
      exact .nil
  | some x => exact hP x h

theorem strung_label (h : Surface.labelSpelled x i ts) :
    Strung (l.Bears t) i ts [] [.name (l.name x)] := by
  obtain ⟨us, _, rfl, hx, rfl⟩ := h
  exact (strung_spelled hx).after_hidden rfl

end Words

theorem typeExprs_emits {es : List Surface.TypeExpr}
    (h : Strung (plainly Surface.TypeExpr.spelled) i ts [] es)
    (hes : ∀ e ∈ es, ∀ i ts, e.spelled i ts → Emits l (typeExpr l e) i ts [] fun n => [.part n]) :
    Emits l (typeExprs l es) i ts [] (List.map .part) :=
  .nodes (by rw [typeExprs]) (fun e es => by rw [typeExprs]) h hes

mutual

theorem typeExpr_emits : ∀ (e : Surface.TypeExpr) (i : Nat) (ts : List Token),
    e.spelled i ts → Emits l (typeExpr l e) i ts [] fun n => [.part n]
  | .name s x, i, ts, h => by
      rw [typeExpr]
      exact Emits.words (fun _ => strung_spelled h.2) (.insert rfl rfl)
  | .tuple s es, i, ts, h => by
      rw [Surface.TypeExpr.spelled, Surface.TypeExpr.spellings_eq_map] at h
      have hes : Strung (plainly Surface.TypeExpr.spelled) i ts [] es :=
        Surface.strung_between h.2 rfl rfl fun _ _ => Surface.plain_listedTrailing
      rw [typeExpr]
      exact Emits.bind (typeExprs_emits hes (typeExprs_each es)) fun t =>
        .insert rfl rfl

theorem typeExprs_each : ∀ (es : List Surface.TypeExpr), ∀ e ∈ es, ∀ i ts,
    e.spelled i ts → Emits l (typeExpr l e) i ts [] fun n => [.part n]
  | [] => List.forall_mem_nil _
  | e :: es => List.forall_mem_cons.mpr ⟨typeExpr_emits e, typeExprs_each es⟩

end

def arg (l : Layout) (a : Surface.Arg) : Lowering (Option Name × NodeId) := do
  let i ← expr l a.2
  return (a.1.map l.name, i)

theorem arg_emits {a : Surface.Arg} (h : a.spelled i ts)
    (ha : ∀ i ts, a.2.spelled i ts → Emits l (expr l a.2) i ts [] fun n => [.part n]) :
    Emits l (arg l a) i ts [] Piece.ofArg := by
  obtain ⟨us, vs, rfl, hlabel, he⟩ := h
  exact Emits.words (fun _ => strung_optional hlabel fun _ => strung_label)
    (.bind (ha _ _ he) fun t => .pure rfl)

theorem args_emits {as : List Surface.Arg} {k k' : Token}
    (h : (.word k ++ Spelling.listedTrailing (Surface.Expr.argSpellings as) ++ .word k' : Spelling)
      i ts) (hk : k.isShown = false) (hk' : k'.isShown = false)
    (has : ∀ a ∈ as, ∀ i ts, a.2.spelled i ts →
      Emits l (expr l a.2) i ts [] fun n => [.part n]) :
    Emits l (args l as) i ts [] (List.flatMap Piece.ofArg) := by
  rw [Surface.Expr.argSpellings_eq_map] at h
  exact .list (g := arg l) (by rw [args]) (fun (label, e) as => by rw [args]; rfl)
    (Surface.strung_between h hk hk' fun _ _ => Surface.plain_listedTrailing)
      fun a ha _ _ h => arg_emits h (has a ha)

theorem exprs_emits {es : List Surface.Expr}
    (h : Strung (plainly Surface.Expr.spelled) i ts [] es)
    (hes : ∀ e ∈ es, ∀ i ts, e.spelled i ts → Emits l (expr l e) i ts [] fun n => [.part n]) :
    Emits l (exprs l es) i ts [] (List.map .part) :=
  .nodes (by rw [exprs]) (fun e es => by rw [exprs]) h hes

theorem literal_emits {v : Surface.Literal} {s : Surface.Span} {k : Kind}
    (hk : k.isLiteral = true) (h : (Surface.Expr.literal s v).spelled i ts) :
    Emits l (insert k (l.site s)) i ts [] fun n => [.part n] := by
  obtain ⟨hs, n, hn⟩ := h
  refine fun t => ⟨t.keeps_insert _ _, .one (Layout.shown_literal hk ?_ hn (congrArg l.site hs))⟩
  cases v with
  | bool b => cases b <;> rfl
  | _ => rfl

mutual

theorem expr_emits : ∀ (e : Surface.Expr) (i : Nat) (ts : List Token),
    e.spelled i ts → Emits l (expr l e) i ts [] fun n => [.part n]
  | .literal s (.int x), i, ts, h => by
      rw [expr]
      exact literal_emits rfl h
  | .literal s (.float x), i, ts, h => by
      rw [expr]
      exact literal_emits rfl h
  | .literal s (.string x), i, ts, h => by
      rw [expr]
      exact literal_emits rfl h
  | .literal s (.bool x), i, ts, h => by
      rw [expr]
      exact literal_emits rfl h
  | .name s none x, i, ts, h => by
      rw [expr]
      refine .enclosed h.2 fun j us hx => ?_
      exact Emits.words (fun _ => strung_spelledValue hx) (.insert rfl rfl)
  | .name s (some d) x, i, ts, h => by
      rw [expr]
      refine .enclosed h.2 fun j us hcore => ?_
      obtain ⟨us, _, rfl, hd, _, vs, rfl, rfl, hx⟩ := hcore
      exact Emits.bind
        (expr_emits d _ _ (Surface.Expr.spelled_of_asOperand hd)) fun t =>
          .words (fun _ => .hidden rfl (strung_spelled hx)) (.insert rfl rfl)
  | .call s c as, i, ts, h => by
      rw [expr]
      refine .enclosed h.2 fun j us hcore => ?_
      obtain ⟨us, vs, rfl, hc, has⟩ := hcore
      exact Emits.bind
        (expr_emits c _ _ (Surface.Expr.spelled_of_asOperand hc)) fun t =>
          .bind (args_emits has rfl rfl (args_each as)) fun t' => .insert rfl rfl
  | .subscript s c as, i, ts, h => by
      rw [expr]
      refine .enclosed h.2 fun j us hcore => ?_
      obtain ⟨us, vs, rfl, hc, has⟩ := hcore
      exact Emits.bind
        (expr_emits c _ _ (Surface.Expr.spelled_of_asOperand hc)) fun t =>
          .bind (args_emits has rfl rfl (args_each as)) fun t' => .insert rfl rfl
  | .binary s lhs op rhs, i, ts, h => by
      rw [expr]
      refine .enclosed h.2 fun j us hcore => ?_
      obtain ⟨-, us, _, rfl, hlhs, vs, ws, rfl, hop, hrhs⟩ := hcore
      rw [Nat.add_assoc, ← List.length_append] at hrhs
      rw [← List.append_assoc]
      exact Emits.bind
        (expr_emits lhs _ _ (Surface.Expr.spelled_of_asOperand hlhs)) fun t =>
          .words (fun _ => strung_spelledOperator hop)
            (.bind (expr_emits rhs _ _ (Surface.Expr.spelled_of_asOperand hrhs)) fun t' =>
              .insert rfl rfl)
  | .tuple s es, i, ts, h => by
      rw [expr]
      refine .enclosed h.2 fun j us hcore => ?_
      have hes := hcore.2
      rw [Surface.Expr.spellings_eq_map] at hes
      have hes : Strung (plainly Surface.Expr.spelled) j us [] es :=
        Surface.strung_between hes rfl rfl fun _ _ => Surface.plain_listedTrailing
      exact Emits.bind (exprs_emits hes (exprs_each es)) fun t =>
        .insert rfl rfl

theorem args_each : ∀ (as : List (Option Surface.Name × Surface.Expr)), ∀ a ∈ as, ∀ i ts,
    a.2.spelled i ts → Emits l (expr l a.2) i ts [] fun n => [.part n]
  | [] => List.forall_mem_nil _
  | (_, e) :: as => List.forall_mem_cons.mpr ⟨expr_emits e, args_each as⟩

theorem exprs_each : ∀ (es : List Surface.Expr), ∀ e ∈ es, ∀ i ts,
    e.spelled i ts → Emits l (expr l e) i ts [] fun n => [.part n]
  | [] => List.forall_mem_nil _
  | e :: es => List.forall_mem_cons.mpr ⟨expr_emits e, exprs_each es⟩

end

theorem patterns_emits {ps : List Surface.Pattern}
    (h : Strung (plainly Surface.Pattern.spelled) i ts [] ps)
    (hps : ∀ p ∈ ps, ∀ i ts, p.spelled i ts → Emits l (pattern l p) i ts [] fun n => [.part n]) :
    Emits l (patterns l ps) i ts [] (List.map .part) :=
  .nodes (by rw [patterns]) (fun p ps => by rw [patterns]) h hps

mutual

theorem pattern_emits : ∀ (p : Surface.Pattern) (i : Nat) (ts : List Token),
    p.spelled i ts → Emits l (pattern l p) i ts [] fun n => [.part n]
  | .name s x, i, ts, h => by
      have hvar : Emits l (insert (.var (l.name x)) (l.site x.span)) i ts [] fun n => [.part n] :=
        Emits.words (fun _ => strung_spelled h.2) (.insert rfl rfl)
      rw [pattern]
      exact Emits.bind hvar fun t => .insert rfl rfl
  | .tuple s ps, i, ts, h => by
      rw [Surface.Pattern.spelled, Surface.Pattern.spellings_eq_map] at h
      have hps : Strung (plainly Surface.Pattern.spelled) i ts [] ps :=
        Surface.strung_between h.2 rfl rfl fun _ _ => Surface.plain_listedTrailing
      rw [pattern]
      exact Emits.bind (patterns_emits hps (patterns_each ps)) fun t =>
        .insert rfl rfl
  | .wildcard s, i, ts, h => by
      obtain ⟨-, rfl⟩ := h
      rw [pattern]
      exact Emits.words (fun _ => .hidden rfl .nil) (.insert rfl rfl)

theorem patterns_each : ∀ (ps : List Surface.Pattern), ∀ p ∈ ps, ∀ i ts,
    p.spelled i ts → Emits l (pattern l p) i ts [] fun n => [.part n]
  | [] => List.forall_mem_nil _
  | p :: ps => List.forall_mem_cons.mpr ⟨pattern_emits p, patterns_each ps⟩

end

theorem Emits.behind {k : Token} {P : Spelling} (hk : k.isShown = false)
    (h : (Spelling.word k ++ P) i ts) (hP : ∀ i ts, P i ts → Emits l m i ts [] out) :
    Emits l m i ts [] out := by
  obtain ⟨_, us, rfl, rfl, hus⟩ := h
  exact (hP _ us hus).hidden hk

theorem ascription_emits {o : Option Surface.TypeExpr}
    (h : Spelling.optional Surface.ascriptionSpelled o i ts) :
    Emits l (typeExpr? l o) i ts [] fun n => n.toList.map .part :=
  .optional (g := typeExpr l) rfl (fun _ => rfl) h fun e _ he => .behind rfl he (typeExpr_emits e)

theorem assigned_emits {o : Option Surface.Expr}
    (h : Spelling.optional Surface.assignedSpelled o i ts) :
    Emits l (expr? l o) i ts [] fun n => n.toList.map .part :=
  .optional (g := expr l) rfl (fun _ => rfl) h fun e _ he => .behind rfl he (expr_emits e)

theorem introducer_isShown (i : Introducer) : (Surface.Introducer.print i).isShown = true := by
  cases i <;> rfl

theorem binding_emits {s : Site} {b : Surface.Binding} (h : b.spelled i ts) :
    Emits l (binding l s b) i ts [] fun n => [.part n] := by
  obtain ⟨_, ys, rfl, ⟨_, xs, rfl, ⟨us, vs, rfl, hintroducer, hpattern⟩, htype⟩, hvalue⟩ := h
  rw [binding]
  exact Emits.words
    (fun _ => strung_word hintroducer (introducer_isShown b.introducer))
    (.bind (pattern_emits b.pattern _ _ hpattern) fun _ =>
      .bind (ascription_emits htype) fun _ => .andThen (.insert rfl rfl) fun _ =>
        .bind (assigned_emits hvalue) fun _ => .insert rfl rfl)

end Lowering

end LanguageService
