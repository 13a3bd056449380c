import LanguageService.Proofs.Subjects
import LanguageService.Proofs.Unsettled

/-!
A value of a tuple type is taken apart by a pattern of its shape, as it has been put together. The
exceptions are the value without parts and tuples of one part.
-/
namespace LanguageService

def Tree.fitsWithin (t : Tree) : Nat → NodeId → Ty → Bool
  | 0, _, _ => false
  | fuel + 1, p, ty =>
      match t.kind p, ty with
      | .namePattern _, _ => true
      | .wildcard, _ => true
      | .tuplePattern ps, .tuple ts =>
          ts.length == ps.length && (ps.zip ts).all fun q => t.fitsWithin fuel q.1 q.2
      | _, _ => false

theorem Tree.fits_of_fitsWithin {t : Tree} {fuel : Nat} {p : NodeId} {ty : Ty}
    (h : t.fitsWithin fuel p ty = true) : t.Fits p ty := by
  induction fuel generalizing p ty with
  | zero => cases h
  | succ fuel ih =>
      unfold fitsWithin at h
      split at h
      · next hp => exact .name hp
      · next hp => exact .wildcard hp
      · next hp =>
          rw [Bool.and_eq_true, List.all_eq_true] at h
          exact .tuple hp (eq_of_beq h.1) fun q hq => ih (h.2 q hq)
      · cases h

namespace Check

structure TakenApart (t : Tree) (p : NodeId) (ty : Ty) (s s' : State) : Prop where
  quiet : s'.diagnostics = s.diagnostics
  gives : ∀ v a, t.Gives v a p ty → s'.types.get? v = some a
  frame : ∀ n, ¬ t.Below p n → s'.types.get? n = s.types.get? n

variable {e : Env} {run : Run} {inBody : Bool} {p : NodeId} {ty : Ty} {s : State}

section Patterns

variable (ht : e.tree.WellFormed)

theorem bindVar_takesApart {v : NodeId} (hp : e.tree.kind p = .namePattern v) :
    Succeeds (bindVar e v ty inBody) s fun _ s' => TakenApart e.tree p ty s s' := by
  have hbelow : e.tree.Below p v := Tree.below_child (by simp [Tree.children, hp, Kind.children])
  have hset {s₁ : State} (hdiagnostics : s₁.diagnostics = s.diagnostics)
      (htypes : s₁.types = s.types) :
      Succeeds (setType v ty) s₁ fun _ s' => TakenApart e.tree p ty s s' := by
    refine .modify ⟨hdiagnostics, ?_, fun n hn => ?_⟩
    · rintro w a h
      cases h with
      | name hp' =>
          cases hp.symm.trans hp'
          simp
      | tuple hp' => cases hp.symm.trans hp'
    · rw [Table.get?_insert, if_neg, htypes]
      rintro rfl
      exact hn hbelow
  unfold bindVar
  split
  · exact .bind (.modify (Q := fun _ s₁ => s₁.diagnostics = s.diagnostics ∧ s₁.types = s.types)
      ⟨rfl, rfl⟩) fun _ _ h => hset h.1 h.2
  · exact hset rfl rfl

theorem patternParts_takeApart {qs : List (NodeId × Ty)}
    (hapart : qs.Pairwise fun q q' => ∀ x, ¬ (e.tree.Below q.1 x ∧ e.tree.Below q'.1 x))
    (hqs : ∀ q ∈ qs, ∀ s, Succeeds (run (.pattern q.1 q.2 inBody)) s fun _ s' =>
      TakenApart e.tree q.1 q.2 s s') :
    Succeeds (patternParts run inBody qs) s fun _ s' => s'.diagnostics = s.diagnostics ∧
      (∀ q ∈ qs, ∀ v a, e.tree.Gives v a q.1 q.2 → s'.types.get? v = some a) ∧
      ∀ n, (∀ q ∈ qs, ¬ e.tree.Below q.1 n) → s'.types.get? n = s.types.get? n := by
  induction qs generalizing s with
  | nil => exact .pure ⟨rfl, by simp, fun _ _ => rfl⟩
  | cons q qs ih =>
      rw [List.pairwise_cons] at hapart
      rw [List.forall_mem_cons] at hqs
      refine (hqs.1 s).bind fun _ s₁ h => (ih hapart.2 hqs.2).mono ?_
      rintro _ s₂ ⟨hquiet, hgives, hframe⟩
      refine ⟨hquiet.trans h.quiet, List.forall_mem_cons.mpr ⟨fun v a hv => ?_, hgives⟩,
        fun n hn => ?_⟩
      · rw [hframe v fun q' hq' hbelow => hapart.1 q' hq' v ⟨Tree.below_of_gives hv, hbelow⟩]
        exact h.gives v a hv
      · rw [List.forall_mem_cons] at hn
        rw [hframe n hn.2, h.frame n hn.1]

include ht

omit ht in
theorem pattern_takesApart_step {fuel : Nat}
    (h : Succeeds (pattern e (perform e fuel) p ty inBody) s fun _ s' =>
      TakenApart e.tree p ty s s') :
    Succeeds (perform e (fuel + 1) (.pattern p ty inBody)) s fun _ s' =>
      TakenApart e.tree p ty s s' :=
  h.bind fun _ _ h => .pure h

theorem pattern_takesApart (h : e.tree.Fits p ty) {fuel : Nat} (hfuel : p < fuel) (s : State) :
    Succeeds (perform e fuel (.pattern p ty inBody)) s fun _ s' =>
      TakenApart e.tree p ty s s' := by
  induction h generalizing fuel s with
  | name hp =>
      obtain ⟨fuel, rfl⟩ := Nat.exists_eq_succ_of_ne_zero (Nat.ne_zero_of_lt hfuel)
      refine pattern_takesApart_step ?_
      rw [pattern, hp]
      exact bindVar_takesApart hp
  | wildcard hp =>
      obtain ⟨fuel, rfl⟩ := Nat.exists_eq_succ_of_ne_zero (Nat.ne_zero_of_lt hfuel)
      refine pattern_takesApart_step ?_
      rw [pattern, hp]
      refine .pure ⟨rfl, fun v a hv => ?_, fun _ _ => rfl⟩
      cases hv with
      | name hp' => cases hp.symm.trans hp'
      | tuple hp' => cases hp.symm.trans hp'
  | @tuple p ps ts hp hlength _ ih =>
      obtain ⟨fuel, rfl⟩ := Nat.exists_eq_succ_of_ne_zero (Nat.ne_zero_of_lt hfuel)
      have hchild {q : NodeId × Ty} (hq : q ∈ ps.zip ts) : q.1 ∈ e.tree.children p := by
        simpa [Tree.children, hp, Kind.children] using (List.of_mem_zip hq).1
      have hparts : parts e p (.tuple ts) ps.length = pure ts := by rw [parts, if_pos hlength]
      have hapart : (ps.zip ts).Pairwise fun q q' =>
          ∀ x, ¬ (e.tree.Below q.1 x ∧ e.tree.Below q'.1 x) := by
        have hpairwise := Tree.children_pairwise ht p
        have hzip : (ps.zip ts).map Prod.fst = ps := List.map_fst_zip hlength.ge
        rwa [Tree.children, hp, Kind.children, ← hzip, List.pairwise_map] at hpairwise
      refine pattern_takesApart_step ?_
      rw [pattern, hp]
      dsimp only
      rw [hparts, pure_bind]
      have hbefore {q : NodeId × Ty} (hq : q ∈ ps.zip ts) : q.1 < fuel :=
        Nat.lt_of_lt_of_le (ht.child_lt p q.1 (hchild hq)) (Nat.le_of_lt_succ hfuel)
      refine (patternParts_takeApart hapart fun q hq s => ih q hq (hbefore hq) s).mono ?_
      rintro _ s' ⟨hquiet, hgives, hframe⟩
      refine ⟨hquiet, fun v a hv => ?_, fun n hn => ?_⟩
      · cases hv with
        | name hp' => cases hp.symm.trans hp'
        | tuple hp' hq hv =>
            cases hp.symm.trans hp'
            exact hgives _ hq v a hv
      · exact hframe n fun q hq hbelow => hn (.of_child (hchild hq) hbelow)

end Patterns

section Bindings

variable {b i a sub : NodeId} {introducer : Site} {how : Introducer} {ctx : Context} {found : Ty}
  {s₁ s₂ : State}

theorem binding_takesApart (hb : e.tree.kind b = .binding p (some i))
    (hp : e.tree.kind p = .bindingPattern introducer how sub (some a))
    (hnew : s.checkedBindings.contains b = false)
    (htype : run (.typeExpr a ctx)
      { s with checkedBindings := s.checkedBindings.insert b () } = some (ty, s₁))
    (hvalue : run (.expr i ctx) s₁ = some (found, s₂)) (hcompatible : found.compatible ty = true)
    (hpattern : ∀ s, Succeeds (run (.pattern sub ty inBody)) s fun _ s' =>
      TakenApart e.tree sub ty s s') :
    Succeeds (binding e run b ctx inBody) s fun _ s' => s'.diagnostics = s₂.diagnostics ∧
      ∀ v a, e.tree.Gives v a sub ty → s'.types.get? v = some a := by
  have hexpect : expect e ty found i = pure () := by rw [expect, if_pos hcompatible]
  have hresult {m : CheckM Ty} {r : Ty} {s s' : State} (h : m s = some (r, s')) :
      Succeeds m s fun r' s₁ => r' = r ∧ s₁ = s' := ⟨r, s', h, rfl, rfl⟩
  rw [binding]
  refine .get ?_
  rw [hnew]
  refine .bind (.modify (Q := fun _ s' => s' = _) rfl) ?_
  rintro - s' rfl
  rw [hb]
  dsimp only
  rw [hp]
  simp only [bindingTypes, bind_assoc, pure_bind, Option.some_or, Option.getD_some]
  refine (hresult htype).bind ?_
  rintro _ s₁ ⟨rfl, rfl⟩
  refine (hresult hvalue).bind ?_
  rintro _ s₂ ⟨rfl, rfl⟩
  rw [hexpect, pure_bind]
  refine .bind (.modify (Q := fun _ s' => s'.diagnostics = s₂.diagnostics) rfl) ?_
  intro _ s₃ hquiet
  exact (hpattern s₃).bind fun _ _ h => .pure ⟨h.quiet.trans hquiet, h.gives⟩

theorem compatible_of_forall₂ {us ts : List Ty}
    (h : List.Forall₂ (fun u t => u.compatible t = true) us ts) :
    (Ty.tuple us).compatible (.tuple ts) = true := by
  have hlist : Ty.compatibleList us ts = true := by
    induction h with
    | nil => rfl
    | cons hfirst _ ih => simp [Ty.compatibleList, hfirst, ih]
  simp [Ty.compatible, hlist]

/-- Destructuring mirrors construction: a binding of a tuple of values to a pattern with as many
parts gives each variable the type of its part, and there is no complaint but what is wrong with the
types and the values by themselves. -/
theorem tuple_binding_takesApart (ht : e.tree.WellFormed) {ps as vs : List NodeId} {ts us : List Ty}
    {fuel : Nat} (hb : e.tree.kind b = .binding p (some i))
    (hp : e.tree.kind p = .bindingPattern introducer how sub (some a))
    (hsub : e.tree.kind sub = .tuplePattern ps) (ha : e.tree.kind a = .tupleType as)
    (hi : e.tree.kind i = .tuple vs) (hnew : s.checkedBindings.contains b = false)
    (htypes : (as.mapM fun n => perform e fuel (.typeExpr n ctx))
      { s with checkedBindings := s.checkedBindings.insert b () } = some (ts, s₁))
    (hvalues : (vs.mapM fun n => perform e fuel (.expr n ctx))
      { s₁ with types := s₁.types.insert a (.tuple ts) } = some (us, s₂))
    (hsome : ts ≠ []) (hlength : ts.length = ps.length)
    (hcompatible : List.Forall₂ (fun u t => u.compatible t = true) us ts)
    (hfits : ∀ q ∈ ps.zip ts, e.tree.Fits q.1 q.2) (hfuel : sub ≤ fuel) :
    Succeeds (perform e (fuel + 2) (.binding b ctx inBody)) s fun _ s' =>
      s'.diagnostics = s₂.diagnostics ∧
        ∀ v a, e.tree.Gives v a sub (.tuple ts) → s'.types.get? v = some a := by
  have htuple {as : List Ty} (h : as ≠ []) : Ty.ofElements as = .tuple as := by
    cases as with
    | nil => exact absurd rfl h
    | cons a as => rfl
  have hussome : us ≠ [] := by
    rintro rfl
    exact hsome (List.forall₂_nil_left_iff.mp hcompatible)
  have htype : perform e (fuel + 1) (.typeExpr a ctx)
      { s with checkedBindings := s.checkedBindings.insert b () } =
        some (.tuple ts, { s₁ with types := s₁.types.insert a (.tuple ts) }) := by
    change typeExpr e (perform e fuel) a ctx _ = _
    rw [typeExpr, ha]
    simp [bind_apply, map_apply, htypes, htuple hsome, setType, modify_apply]
  have hvalue : perform e (fuel + 1) (.expr i ctx)
      { s₁ with types := s₁.types.insert a (.tuple ts) } =
        some (.tuple us, { s₂ with types := s₂.types.insert i (.tuple us) }) := by
    change expr e (perform e fuel) i ctx _ = _
    rw [expr, hi]
    simp [bind_apply, map_apply, hvalues, htuple hussome, setType, modify_apply]
  refine (binding_takesApart hb hp hnew htype hvalue (compatible_of_forall₂ hcompatible)
    fun s => pattern_takesApart ht (.tuple hsub hlength hfits) (Nat.lt_succ_of_le hfuel) s).bind
      fun _ _ h => .pure h

end Bindings

/-- In an accepted program the variables of a binding have the types of their parts: of the type
that is written down, or else of that of the initial value. -/
theorem accepted_takesApart {base t : Tree} {name : String} {files : List File} {p : Program}
    (hbase : base.Parsed) (hparse : Tree.parseModule base name files = .ok t)
    (hcheck : typeCheck t = .ok p) {u b : NodeId} (hu : u ∈ t.units)
    (hown : t.isInherited u = false) (hbelow : t.Below u b) {q sub n v : NodeId}
    {i ascription : Option NodeId} {introducer : Site} {how : Introducer} {ty a : Ty}
    (hb : t.kind b = .binding q i) (hq : t.kind q = .bindingPattern introducer how sub ascription)
    (hn : ascription.or i = some n) (hty : p.types.get? n = some ty) (hfits : t.Fits sub ty)
    (hgives : t.Gives v a sub ty) (herror : a ≠ .error) : p.types.get? v = some a := by
  have ht := Tree.parseModule_wellFormed hbase.wellFormed hparse
  obtain ⟨s, hfinal, hclean, rfl⟩ := exists_final_of_typeCheck hcheck
  exact (final_lawful ht hfinal hclean hu hown hbelow).takesApart q i introducer how sub
    ascription n
    ty hb hq hn hty hfits v a hgives herror

def pairsDocument : File :=
  .document "file:///main.orca" "let (a, (b, c)): (Int, (Bool, String)) = (1, (true, \"s\"));"

/-- Whether `b` binds a pattern that has the shape of a type and of a value, and these are checked
without a complaint. -/
def pairsRun (t : Tree) (b : NodeId) : Bool :=
  match t.kind b with
  | .binding p (some i) =>
      match t.kind p, t.kind i with
      | .bindingPattern _ _ sub (some a), .tuple vs =>
          match t.kind sub, t.kind a with
          | .tuplePattern ps, .tupleType as =>
              match (as.mapM fun n => perform ⟨t, .ofTree t⟩ sub (.typeExpr n ⟨b, none, [], none⟩))
                { State.initial .empty with checkedBindings := Table.empty.insert b () } with
              | some ([.builtin .int, .tuple [.builtin .bool, .builtin .string]], s) =>
                  decide (ps.length = 2) && (ps.zip
                    [.builtin .int, .tuple [.builtin .bool, .builtin .string]]).all
                      (fun q => t.fitsWithin sub q.1 q.2) &&
                    match (vs.mapM fun n =>
                        perform ⟨t, .ofTree t⟩ sub (.expr n ⟨b, none, [], none⟩))
                      { s with types := s.types.insert a (.tuple
                        [.builtin .int, .tuple [.builtin .bool, .builtin .string]]) } with
                    | some ([.builtin .int, .tuple [.builtin .bool, .builtin .string]], s) =>
                        s.diagnostics.elements.isEmpty
                    | _ => false
              | _ => false
          | _, _ => false
      | _, _ => false
  | _ => false

theorem pairsDocument_takenApart : ∃ t b p i introducer how sub a r s,
    Tree.parseModule .empty "main" [pairsDocument] = .ok t ∧
      t.kind b = .binding p (some i) ∧ t.kind p = .bindingPattern introducer how sub (some a) ∧
      perform ⟨t, .ofTree t⟩ (sub + 2) (.binding b ⟨b, none, [], none⟩ false) (.initial .empty) =
        some (r, s) ∧ s.diagnostics.elements = [] ∧
        ∀ v c, t.Gives v c sub
            (.tuple [.builtin .int, .tuple [.builtin .bool, .builtin .string]]) →
          s.types.get? v = some c := by
  have hrun : (Tree.parseModule .empty "main" [pairsDocument]).toOption.any (fun t =>
      (List.range t.size).any (pairsRun t)) = true := by
    rw [Tree.parseModule, Tree.parseUnits, Tree.parseUnit, Layout.ofFile_of_text pairsDocument rfl]
    decide +kernel
  obtain ⟨t, hparse, hrun⟩ := exists_ok_of_any hrun
  obtain ⟨b, -, hrun⟩ := List.any_eq_true.mp hrun
  unfold pairsRun at hrun
  split at hrun
  · next p i hb =>
      split at hrun
      · next introducer how sub a vs hp hi =>
          split at hrun
          · next ps as hsub ha =>
              split at hrun
              · next s₁ htypes =>
                  simp only [Bool.and_eq_true, decide_eq_true_eq, List.all_eq_true] at hrun
                  obtain ⟨⟨hlength, hfits⟩, hrun⟩ := hrun
                  split at hrun
                  · next s₂ hvalues =>
                      obtain ⟨r, s, hs, hquiet, hgives⟩ := tuple_binding_takesApart
                        (e := ⟨t, .ofTree t⟩) (s := .initial .empty)
                        (Tree.parseModule_wellFormed Tree.wellFormed_empty hparse) hb hp hsub ha hi
                        rfl htypes hvalues (by simp) hlength.symm
                        (.cons (by decide) (.cons (by decide) .nil))
                        (fun q hq => Tree.fits_of_fitsWithin (hfits q hq)) (Nat.le_refl sub)
                      refine ⟨t, b, p, i, introducer, how, sub, a, r, s, hparse, hb, hp, hs, ?_,
                        hgives⟩
                      rw [hquiet]
                      exact List.isEmpty_iff.mp hrun
                  · cases hrun
              · cases hrun
          · cases hrun
      · cases hrun
  · cases hrun

/-- The empty tuple is no tuple to a pattern, nor is a value in parentheses a tuple to a type. -/
theorem short_tuples_refused :
    acceptsAlone "let u: () = ();\n" = true ∧ acceptsAlone "let () : () = ();\n" = false ∧
      acceptsAlone "let x: Int = 1;\n" = true ∧ acceptsAlone "let (x): (Int) = (1);\n" = false := by
  refine ⟨?_, ?_, ?_, ?_⟩ <;> decide +kernel

end Check

end LanguageService
