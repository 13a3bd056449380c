import LanguageService.Proofs.Expansion
import LanguageService.Proofs.Resolution

namespace LanguageService

theorem Program.HasValue.unique {p : Program} {d : NodeId} {a b : Ty} (h : p.HasValue d a)
    (h' : p.HasValue d b) : a = b := by
  cases hk : p.tree.kind d with
  | typeAlias =>
      simp only [HasValue, hk] at h h'
      obtain ⟨c, hc, rfl⟩ := h
      obtain ⟨c', hc', rfl⟩ := h'
      rw [Option.some.inj (hc.symm.trans hc')]
  | product | trait | associated | generic | space =>
      simp only [HasValue, hk] at h h'
      rw [h, h']
  | _ =>
      simp only [HasValue, hk] at h h'
      exact Option.some.inj (h.symm.trans h')

def Tree.visible? (t : Tree) (x : String) (d : NodeId) : Option NodeId :=
  ((Declarations.ofTree t).lookup t d x).head?

/-- The type for which the name `x` stands if the declaration found for it is `found`. -/
def Program.NamesType (p : Program) (found : Option NodeId) (x : String) (a : Ty) : Prop :=
  match found with
  | some k => p.HasValue k (.metatype a)
  | none => (Builtin.ofWord x).map .builtin = some a

theorem Program.NamesType.unique {p : Program} {found : Option NodeId} {x : String} {a b : Ty}
    (h : p.NamesType found x a) (h' : p.NamesType found x b) : a = b := by
  cases found with
  | none => exact Option.some.inj (h.symm.trans h')
  | some k => exact Ty.metatype.inj (HasValue.unique h h')

namespace Check

/-- The names by which both types and values are called, where the same is looked up for both: they
are not special, no generic parameter has them, and what is declared is not built in as well. -/
structure Unhidden (e : Env) (ctx : Context) (x : String) : Prop where
  special : x ≠ "Self" ∧ x ≠ "self"
  generics : ∀ g ∈ ctx.generics, (e.tree.kind g).declared ≠ some x
  once : Builtin.ofWord x = none ∨ e.decls.lookup e.tree ctx.scope x = []

structure State.StandsFor (s : State) (e : Env) (scope : NodeId) (x : String) (a : Ty) : Prop where
  declared : ∀ d, (e.decls.lookup e.tree scope x).head? = some d → e.tree.denoted? d = some a ∨
    (e.tree.kind d).isTypeAlias = true ∧ s.types.get? d = some a
  builtin : (e.decls.lookup e.tree scope x).head? = none →
    (Builtin.ofWord x).map .builtin = some a

variable {e : Env} {run : Run} {s s' : State} {scope : NodeId} {x : String} {a b : Ty}

theorem State.StandsFor.of_head {d : NodeId} (hd : (e.decls.lookup e.tree scope x).head? = some d)
    (h : e.tree.denoted? d = some a ∨
      (e.tree.kind d).isTypeAlias = true ∧ s.types.get? d = some a) :
    s.StandsFor e scope x a := by
  refine ⟨fun d' hd' => ?_, by simp [hd]⟩
  cases hd.symm.trans hd'
  exact h

theorem State.StandsFor.unique (h : s.StandsFor e scope x a) (h' : s.StandsFor e scope x b) :
    a = b := by
  cases hd : (e.decls.lookup e.tree scope x).head? with
  | none => exact Option.some.inj ((h.builtin hd).symm.trans (h'.builtin hd))
  | some d =>
      have hplain {c : Ty} (hc : e.tree.denoted? d = some c) :
          (e.tree.kind d).isTypeAlias = false := by
        refine Bool.eq_false_iff.mpr fun halias => ?_
        obtain ⟨k, hk⟩ := Kind.exists_aliased? halias
        exact absurd ((Tree.aliased?_of_denoted? hc).symm.trans hk) (by simp)
      rcases h.declared d hd with h | ⟨halias, h⟩ <;>
        rcases h'.declared d hd with h' | ⟨halias', h'⟩
      · exact Option.some.inj (h.symm.trans h')
      · exact absurd (hplain h) (by simp [halias'])
      · exact absurd (hplain h') (by simp [halias])
      · exact Option.some.inj (h.symm.trans h')

theorem State.StandsFor.later (h : s.StandsFor e scope x a) {region : NodeId → Prop}
    (hspares : Spares e.tree region s s') : s'.StandsFor e scope x a where
  declared := fun d hd =>
    (h.declared d hd).imp id fun ⟨halias, hty⟩ => ⟨halias, hspares.aliases d a halias hty⟩
  builtin := h.builtin

section Lookups

variable (hrun : Unfolds e.tree run) {n : NodeId} {ctx : Context} {y : Name}

include hrun

theorem typeName_standsFor (hs : Expanded e.tree s) (hx : Unhidden e ctx y.text) :
    Ends (typeName e run n y ctx) s fun a s' => s'.Clean → s'.StandsFor e ctx.scope y.text a := by
  have hrefused (c : Complaint) : Ends (complain e y.site c >>= fun _ => pure Ty.error) s
      fun a s' => s'.Clean → s'.StandsFor e ctx.scope y.text a :=
    (complain_spec e y.site c s).bind fun _ _ h => .pure fun hclean => absurd hclean h.2
  have hrefer {r : Reference} {a : Ty} {s₁ : State}
      (h : s₁.Clean → s₁.StandsFor e ctx.scope y.text a) :
      Ends (refer n r >>= fun _ => pure a) s₁
        fun a s' => s'.Clean → s'.StandsFor e ctx.scope y.text a :=
    .bind (.modify (Q := fun _ s' => s'.Clean → s'.StandsFor e ctx.scope y.text a)
      fun hclean => ⟨(h hclean).declared, (h hclean).builtin⟩) fun _ _ h => .pure h
  rw [typeName, if_neg hx.special.1]
  dsimp only
  split
  · next g hg =>
      refine absurd ?_ (hx.generics g (List.mem_of_find?_eq_some hg))
      have hnamed := List.find?_some hg
      split at hnamed
      · next z hz => simp_all [Kind.declared]
      · cases hnamed
  · split
    · next b hb =>
        have hnone := hx.once.resolve_left (by simp [hb])
        exact hrefer fun _ => ⟨by simp [hnone], by simp [hb]⟩
    · split
      · exact hrefused _
      · next d hd =>
          split
          · exact hrefused _
          · next find hfind =>
              rcases typeDenoted_cases hfind with ⟨a, ha, rfl⟩ | ⟨halias, rfl⟩
              · rw [pure_bind]
                exact hrefer fun _ => .of_head hd (.inl ha)
              · exact (hrun (.typeAlias d) s hs trivial).bind fun a s₁ h => hrefer fun hclean =>
                  .of_head hd (.inr ⟨halias, h.2 hclean halias⟩)

theorem valueType_denotes {d : NodeId} (hs : Expanded e.tree s)
    (hd : (∃ a, e.tree.denoted? d = some a) ∨ (e.tree.kind d).isTypeAlias = true) :
    Ends (valueType e run d) s fun ty s' => s'.Clean → ∃ a, ty = .metatype a ∧
      (e.tree.denoted? d = some a ∨
        (e.tree.kind d).isTypeAlias = true ∧ s'.types.get? d = some a) := by
  rcases hd with ⟨a, ha⟩ | halias
  · have hvalue : valueType e run d = pure (.metatype a) := by
      rw [Tree.denoted?] at ha
      split at ha <;> cases ha <;> next hk => rw [valueType, hk]
    rw [hvalue]
    exact .pure fun _ => ⟨a, rfl, .inl ha⟩
  · obtain ⟨introducer, y, k, hk⟩ := Kind.exists_of_isTypeAlias halias
    have hvalue : valueType e run d =
        run (.typeAlias d) >>= fun a => pure (.metatype a) := by rw [valueType, hk]
    rw [hvalue]
    exact (hrun (.typeAlias d) s hs trivial).bind fun a s' h =>
      .pure fun hclean => ⟨a, rfl, .inr ⟨halias, h.2 hclean halias⟩⟩

theorem unqualified_standsFor (ht : e.tree.WellFormed) (hn : (e.tree.kind n).isExpr = true)
    (hs : Expanded e.tree s) (hx : y.text ≠ "self")
    (hlocal : lookupFrames y.text s.frames = none)
    (htype : ∀ d, (e.decls.lookup e.tree ctx.scope y.text).head? = some d →
      (∃ a, e.tree.denoted? d = some a) ∨ (e.tree.kind d).isTypeAlias = true) :
    Ends (unqualified e run n y ctx) s fun ty s' => ∀ b, ty = .metatype b → s'.Clean →
      s'.StandsFor e ctx.scope y.text b := by
  rw [unqualified, if_neg hx]
  refine .get ?_
  rw [hlocal]
  dsimp only
  split
  · next d hd =>
      refine (referAt_harmless ht hn _ s hs).bind fun _ s₁ hmoves => ?_
      refine (valueType_denotes hrun hmoves.expanded (htype d hd)).mono ?_
      intro ty s' h b hb hclean
      obtain ⟨a, ha, hdenoted⟩ := h hclean
      cases ha.symm.trans hb
      exact .of_head hd hdenoted
  · next hnone =>
      split
      · exact .bind .any fun _ _ _ => .pure fun b hb => by cases hb
      · split
        · next c hc =>
            refine .bind .any fun _ s₁ _ => .pure fun b hb _ => ⟨by simp [hnone], ?_⟩
            cases hb
            simp [hc]
        · exact .bind .any fun _ _ _ => .pure fun b hb => by cases hb

end Lookups

section Names

variable (ht : e.tree.WellFormed) (hds : e.decls.Sane e.tree) (hletters : e.tree.Lettered)
  {n : NodeId} {ctx : Context} {y : Name}

include ht hds hletters

theorem typeExpr_standsFor (fuel : Nat) (hn : e.tree.kind n = .nameType y)
    (hs : Expanded e.tree s) (hx : Unhidden e ctx y.text) :
    Ends (perform e fuel (.typeExpr n ctx)) s fun a s' =>
      s'.Clean → s'.StandsFor e ctx.scope y.text a := by
  cases fuel with
  | zero => exact fun _ _ h => absurd h (by simp [perform])
  | succ fuel =>
      change Ends (typeExpr e (perform e fuel) n ctx) s _
      rw [typeExpr, hn]
      refine (typeName_standsFor (perform_unfolds ht hds hletters fuel) hs hx).bind fun a s₁ h => ?_
      refine .bind (.modify (Q := fun _ s' => s' = _) rfl) ?_
      rintro - s' rfl
      exact .pure fun hclean => (h hclean).later (spares_setType (by simp [hn, Kind.isTypeAlias]))

theorem expr_standsFor (fuel : Nat) (hn : e.tree.kind n = .name none y) (hs : Expanded e.tree s)
    (hx : y.text ≠ "self") (hlocal : lookupFrames y.text s.frames = none)
    (htype : ∀ d, (e.decls.lookup e.tree ctx.scope y.text).head? = some d →
      (∃ a, e.tree.denoted? d = some a) ∨ (e.tree.kind d).isTypeAlias = true) :
    Ends (perform e fuel (.expr n ctx)) s fun ty s' => ∀ b, ty = .metatype b → s'.Clean →
      s'.StandsFor e ctx.scope y.text b := by
  cases fuel with
  | zero => exact fun _ _ h => absurd h (by simp [perform])
  | succ fuel =>
      change Ends (expr e (perform e fuel) n ctx) s _
      rw [expr, hn]
      refine (unqualified_standsFor (perform_unfolds ht hds hletters fuel) ht (by rw [hn]; rfl) hs
        hx hlocal htype).bind fun ty s₁ h => ?_
      refine .bind (.modify (Q := fun _ s' => s' = _) rfl) ?_
      rintro - s' rfl
      exact .pure fun b hb hclean =>
        (h b hb hclean).later (spares_setType (by simp [hn, Kind.isTypeAlias]))

end Names

/-- Looked up from one declaration, a name that nothing hides stands for the same type where a type
is expected as where a value is, whichever comes first and whatever is checked in between. -/
theorem type_and_value_agree {t : Tree} (h : t.Parsed) {n m : NodeId} {x y : Name}
    (hn : t.kind n = .nameType x) (hm : t.kind m = .name none y) (hxy : y.text = x.text)
    {ctx ctx' : Context} (hscope : ctx'.scope = ctx.scope)
    (hx : Unhidden ⟨t, .ofTree t⟩ ctx x.text) {s s' q q' : State} (hs : Expanded t s)
    (hq : Expanded t q) (hlocal : lookupFrames x.text q.frames = none) {fuel fuel' : Nat}
    (htype : perform ⟨t, .ofTree t⟩ fuel (.typeExpr n ctx) s = some (a, s'))
    (hvalue : perform ⟨t, .ofTree t⟩ fuel' (.expr m ctx') q = some (.metatype b, q'))
    (hclean : s'.Clean ∧ q'.Clean) {region : NodeId → Prop}
    (hlater : Spares t region s' q' ∨ Spares t region q' s') : a = b := by
  have ht := h.wellFormed
  have hds := Declarations.sane_ofTree ht
  have ha := typeExpr_standsFor (e := ⟨t, .ofTree t⟩) ht hds h.lettered fuel hn hs hx a s' htype
    hclean.1
  have hb : q'.StandsFor ⟨t, .ofTree t⟩ ctx.scope x.text b := by
    rw [← hxy, ← hscope] at ha ⊢
    refine expr_standsFor (e := ⟨t, .ofTree t⟩) ht hds h.lettered fuel' hm hq ?_ ?_
      (fun d hd => ?_) _ q' hvalue b rfl hclean.2
    · exact hxy ▸ hx.special.2
    · rwa [hxy]
    · exact (ha.declared d hd).imp (fun hd => ⟨a, hd⟩) And.left
  rcases hlater with hlater | hlater
  · exact (ha.later hlater).unique hb
  · exact ha.unique (hb.later hlater)

def wordDocument : File :=
  .document "file:///main.orca" "
    type Cell \x7b\x7d
    typealias Word = Cell
    let w: Word = Word();"

/-- Whether `b` binds a variable of the type `Word` to a value of it, and these names are checked
one after the other without a complaint. -/
def wordRun (t : Tree) (b : NodeId) : Bool :=
  match t.kind b with
  | .binding p (some i) =>
      match t.kind p, t.kind i with
      | .bindingPattern _ _ _ (some n), .call m _ =>
          match t.kind n, t.kind m with
          | .nameType x, .name none y => decide (x.text = "Word") && decide (y.text = "Word") &&
              match perform ⟨t, .ofTree t⟩ 4 (.typeExpr n ⟨b, none, [], none⟩) (.initial .empty) with
              | some (a, s) => !s.diagnostics.containsError && decide (a.describe t = "Cell") &&
                  decide (lookupFrames "Word" s.frames = none) &&
                  match perform ⟨t, .ofTree t⟩ 4 (.expr m ⟨b, none, [], none⟩) s with
                  | some (.metatype _, q) => !q.diagnostics.containsError
                  | _ => false
              | none => false
          | _, _ => false
      | _, _ => false
  | _ => false

theorem wordDocument_agrees : ∃ t b n m x y s q a c,
    Tree.parseModule .empty "main" [wordDocument] = .ok t ∧ t.kind n = .nameType x ∧
      t.kind m = .name none y ∧ x.text = "Word" ∧
      perform ⟨t, .ofTree t⟩ 4 (.typeExpr n ⟨b, none, [], none⟩) (.initial .empty) = some (a, s) ∧
      perform ⟨t, .ofTree t⟩ 4 (.expr m ⟨b, none, [], none⟩) s = some (.metatype c, q) ∧
      a = c ∧ a.describe t = "Cell" := by
  have hrun : (Tree.parseModule .empty "main" [wordDocument]).toOption.any (fun t =>
      (List.range t.size).any (wordRun t)) = true := by
    rw [Tree.parseModule, Tree.parseUnits, Tree.parseUnit, Layout.ofFile_of_text wordDocument rfl]
    decide +kernel
  obtain ⟨t, hparse, hrun⟩ := exists_ok_of_any hrun
  obtain ⟨b, -, hrun⟩ := List.any_eq_true.mp hrun
  have h : t.Parsed := .module .empty hparse
  have hunfolds := perform_unfolds (e := ⟨t, .ofTree t⟩) h.wellFormed
    (Declarations.sane_ofTree h.wellFormed) h.lettered 4
  unfold wordRun at hrun
  split at hrun
  · next p i hb =>
      split at hrun
      · next introducer how sub n m args hpattern hcall =>
          split at hrun
          · next x y hx hy =>
              simp only [Bool.and_eq_true, decide_eq_true_eq] at hrun
              obtain ⟨⟨hxword, hyword⟩, hrun⟩ := hrun
              split at hrun
              · next a s htype =>
                  simp only [Bool.and_eq_true, decide_eq_true_eq, Bool.not_eq_true'] at hrun
                  obtain ⟨⟨⟨hclean, hshown⟩, hlocal⟩, hrun⟩ := hrun
                  split at hrun
                  · next c q hvalue =>
                      have hgrounded : Job.Grounded t (.initial .empty)
                          (.typeExpr n ⟨b, none, [], none⟩) := by
                        refine ⟨by rw [hx]; rfl, fun d hd => absurd hd ?_⟩
                        exact Tree.not_writtenFor_of_part h.wellFormed (q := p)
                          (by simp [hpattern, Kind.parts]) (by rw [hpattern]; rfl)
                          (by rw [hpattern]; rfl)
                      have hmoves := (hunfolds _ _ (expanded_initial t .empty) hgrounded a s htype).1
                      have hexpr : Job.Grounded t s (.expr m ⟨b, none, [], none⟩) := by
                        change (t.kind m).isExpr = true
                        rw [hy]
                        rfl
                      have hmoves' := (hunfolds _ s hmoves.expanded hexpr _ q hvalue).1
                      have hagree := type_and_value_agree h hx hy (hyword.trans hxword.symm) rfl
                        ⟨by rw [hxword]; decide, List.forall_mem_nil _,
                          .inl (by rw [hxword]; decide)⟩
                        (expanded_initial t .empty) hmoves.expanded (hxword ▸ hlocal) htype hvalue
                        ⟨hclean, by simpa [State.Clean] using hrun⟩ (.inl hmoves'.spares)
                      exact ⟨t, b, n, m, x, y, s, q, a, c, hparse, hx, hy, hxword, htype, hvalue,
                        hagree, hshown⟩
                  · cases hrun
              · cases hrun
          · cases hrun
      · cases hrun
  · cases hrun

section Accepted

variable {t : Tree} {n m : NodeId} {x : String}

theorem State.TypeNamed.namesType (h : s.TypeNamed ⟨t, .ofTree t⟩ n x a) (hclean : s.Clean)
    (hx : x ≠ "Self") (hgeneric : ∀ g, a = .parameter g → (t.kind g).isGeneric = false)
    (honce : Builtin.ofWord x = none ∨ (t.typeHome? n).bind (t.visible? x) = none) :
    (s.program t).NamesType ((t.typeHome? n).bind (t.visible? x)) x a := by
  cases h with
  | unknown h => exact absurd hclean h
  | self h => exact absurd h hx
  | generic hg => exact absurd hg (by simp [hgeneric _ rfl])
  | builtin hb =>
      rw [honce.resolve_left (by simp [hb])]
      exact congrArg (Option.map Ty.builtin) hb
  | declared hd hlookup _ hvalue =>
      rw [hd, Option.bind_some, Tree.visible?, hlookup]
      exact hvalue

theorem State.ValueNamed.namesType (h : s.ValueNamed ⟨t, .ofTree t⟩ m x b) (hclean : s.Clean)
    (hlocal : (t.locals m).findSome? (fun vs => vs.find? (t.isNamed x)) = none) :
    (s.program t).NamesType ((t.home? m).bind (t.visible? x)) x b := by
  have hmeaning : t.meaning m x = match (t.home? m).bind (t.visible? x) with
      | some k => some (if isMember ⟨t, .ofTree t⟩ k then .member k else .direct k)
      | none => Tree.builtinNamed x := by
    rw [Tree.meaning, hlocal]
    rfl
  cases hfound : (t.home? m).bind (t.visible? x) with
  | none =>
      simp only [hfound] at hmeaning
      cases h with
      | unknown h => exact absurd hclean h
      | builtin _ hb => exact congrArg (Option.map Ty.builtin) hb
      | declared hm =>
          rw [hmeaning, Tree.builtinNamed] at hm
          split at hm <;> simp at hm
  | some k =>
      simp only [hfound] at hmeaning
      cases h with
      | unknown h => exact absurd hclean h
      | builtin hm =>
          rw [hmeaning] at hm
          split at hm <;> simp at hm
      | @declared k' _ hm _ hvalue =>
          rw [hmeaning] at hm
          obtain rfl : k = k' := by split at hm <;> simpa using hm
          exact hvalue

/-- In an accepted program a type name and a name that stands alone have the same type, if nothing
hides the one from the other and both are looked up from where the same declaration is found. -/
theorem accepted_names_agree (h : t.Parsed) {p : Program} (hcheck : typeCheck t = .ok p)
    {x y : Name} (hn : t.kind n = .nameType x) (hm : t.kind m = .name none y)
    (hxy : y.text = x.text) (hspecial : x.text ≠ "Self" ∧ x.text ≠ "self")
    (hlocal : (t.locals m).findSome? (fun vs => vs.find? (t.isNamed x.text)) = none)
    (hscope : (t.typeHome? n).bind (t.visible? x.text) = (t.home? m).bind (t.visible? x.text))
    (honce : Builtin.ofWord x.text = none ∨ (t.home? m).bind (t.visible? x.text) = none)
    (ha : p.types.get? n = some a) (hb : p.types.get? m = some (.metatype b))
    (hgeneric : ∀ g, a = .parameter g → (t.kind g).isGeneric = false) : a = b := by
  obtain ⟨s, hfinal, hclean, rfl⟩ := exists_final_of_typeCheck hcheck
  obtain ⟨_, s', hrun, hlexical, -⟩ := checkDecls_lexical h (List.Perm.refl (ownDecls t))
  obtain rfl : s' = s := by
    rw [final, hrun] at hfinal
    exact Option.some.inj hfinal
  have htype := (hlexical.named n x a hn ha).namesType hclean hspecial.1 hgeneric
    (by rwa [hscope])
  have hvalue := (hlexical.denotes m _ hb y ⟨hm, hxy ▸ hspecial.2⟩ b rfl).namesType hclean
    (by rwa [hxy])
  rw [hxy, ← hscope] at hvalue
  exact htype.unique hvalue

end Accepted

def wordsAgree (t : Tree) (p : Program) (n m : NodeId) : Bool :=
  match t.kind n, t.kind m, p.types.get? n, p.types.get? m with
  | .nameType x, .name none y, some (.product _), some (.metatype _) =>
      decide (x.text = "Word") && decide (y.text = "Word") &&
        decide ((t.locals m).findSome? (fun vs => vs.find? (t.isNamed "Word")) = none) &&
        decide ((t.typeHome? n).bind (t.visible? "Word") = (t.home? m).bind (t.visible? "Word"))
  | _, _, _, _ => false

theorem wordDocument_accepted : ∃ t p n m a b,
    Tree.parseModule .empty "main" [wordDocument] = .ok t ∧ typeCheck t = .ok p ∧
      p.types.get? n = some (.product a) ∧ p.types.get? m = some (.metatype b) ∧
      .product a = b := by
  have hrun : (Tree.parseModule .empty "main" [wordDocument]).toOption.any (fun t =>
      (typeCheck t).toOption.any fun p => (List.range t.size).any fun n =>
        (List.range t.size).any fun m => wordsAgree t p n m) = true := by
    rw [Tree.parseModule, Tree.parseUnits, Tree.parseUnit, Layout.ofFile_of_text wordDocument rfl]
    decide +kernel
  obtain ⟨t, hparse, hrun⟩ := exists_ok_of_any hrun
  obtain ⟨p, hcheck, hrun⟩ := exists_ok_of_any hrun
  obtain ⟨n, -, hrun⟩ := List.any_eq_true.mp hrun
  obtain ⟨m, -, hrun⟩ := List.any_eq_true.mp hrun
  unfold wordsAgree at hrun
  split at hrun
  · next x y a b hn hm ha hb =>
      simp only [Bool.and_eq_true, decide_eq_true_eq] at hrun
      obtain ⟨⟨⟨hx, hy⟩, hlocal⟩, hscope⟩ := hrun
      have hagree := accepted_names_agree (.module .empty hparse) hcheck hn hm (hy.trans hx.symm)
        (by rw [hx]; decide) (hx ▸ hlocal) (hx ▸ hscope) (.inl (by rw [hx]; decide)) ha hb
        (by simp)
      exact ⟨t, p, n, m, a, b, hparse, hcheck, ha, hb, hagree⟩
  · cases hrun

/-- The names that stand for one type where a type is expected and for another where a value is,
though both are looked up from the same declaration, if the module of one file is accepted. -/
def ambiguous (text : String) : Option (List String) :=
  match Tree.parseModule .empty "main" [.document "file:///main.orca" text] with
  | .error _ => none
  | .ok t =>
      match typeCheck t with
      | .error _ => none
      | .ok p => some ((List.range t.size).flatMap fun n => (List.range t.size).filterMap fun m =>
          match t.kind n, t.kind m, p.types.get? n, p.types.get? m with
          | .nameType x, .name none y, some a, some (.metatype b) =>
              if x.text = y.text ∧ t.home? n = t.home? m ∧ t.home? n ≠ none ∧
                ((t.locals m).findSome? fun vs => vs.find? (t.isNamed y.text)) = none ∧
                  a.same b = false then some x.text else none
          | _, _, _, _ => none)

/-- Generic parameters are not looked up for values, and what is built in hides what is declared
from types alone. -/
theorem names_ambiguous :
    (∃ text, ambiguous text = some ["T", "T"]) ∧ ∃ text, ambiguous text = some ["Int"] := by
  refine ⟨⟨"type T \x7b\x7d\nfun f<T>(x: T) \x7b let y: T = x; let z = T; \x7d\n", ?_⟩,
    "type Int \x7b\x7d\nfun f() \x7b let x: Int = 1; let y = Int(); \x7d\n", ?_⟩
  · decide +kernel
  · decide +kernel

end Check

end LanguageService
