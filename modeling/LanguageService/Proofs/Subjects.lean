import LanguageService.Proofs.Extending

namespace LanguageService

theorem exists_ok_of_any {ε α : Type} {r : Except ε α} {f : α → Bool}
    (h : r.toOption.any f = true) : ∃ a, r = .ok a ∧ f a = true := by
  cases r with
  | error e => cases h
  | ok a => exact ⟨a, rfl, h⟩

namespace Kind

def isTrait : Kind → Bool
  | trait _ _ _ => true
  | _ => false

def isTypeAlias : Kind → Bool
  | typeAlias _ _ _ => true
  | _ => false

end Kind

namespace Check

variable {e : Env} {run : Run} {s : State} {ctx : Context} {n : NodeId} {x : Name}

structure Context.From (e : Env) (d : NodeId) (ctx : Context) : Prop where
  scope : ctx.scope = d
  generics : ∀ g ∈ ctx.generics, (e.tree.kind g).isGeneric = true

theorem Context.From.withGenerics (ht : e.tree.WellFormed) {d q : NodeId} (h : ctx.From e d)
    {gs : List NodeId} (hgs : ∀ g ∈ gs, (Kind.isGeneric, g) ∈ (e.tree.kind q).parts)
    (self : Option Ty) :
    Context.From e d ⟨ctx.scope, self, ctx.generics ++ gs, ctx.returnType⟩ := by
  refine ⟨h.scope, fun g hg => ?_⟩
  rcases List.mem_append.mp hg with hg | hg
  · exact h.generics g hg
  · exact ht.fits q _ (hgs g hg)

theorem Ends.any {α : Type} {m : CheckM α} : Ends m s fun _ _ => True := fun _ _ _ => trivial

theorem extendContext_from (ht : e.tree.WellFormed) {d : NodeId} (h : ctx.From e d) (q : NodeId) :
    Ends (extendContext e run ctx q) s fun ctx' _ => ctx'.From e d := by
  have hself : Ends (extendContext.subjectSelf run ctx q) s fun ctx' _ => ctx'.From e d := by
    rw [extendContext.subjectSelf]
    split
    · exact .pure h
    · exact .bind .any fun _ _ _ => .pure ⟨h.scope, h.generics⟩
  rw [extendContext]
  split
  · next hk => exact .pure (h.withGenerics ht (q := q) (by simp +contextual [hk, Kind.parts]) _)
  · next hk => exact .pure (h.withGenerics ht (q := q) (by simp +contextual [hk, Kind.parts]) _)
  · next hk => exact .pure (h.withGenerics ht (q := q) (by simp +contextual [hk, Kind.parts]) _)
  · exact .pure ⟨h.scope, h.generics⟩
  · exact hself
  · exact hself
  · exact .pure h

theorem contextOf_from (ht : e.tree.WellFormed) (d : NodeId) :
    Ends (contextOf e run d) s fun ctx _ => ctx.From e d := by
  have hall (ds : List NodeId) {ctx : Context} (h : ctx.From e d) (s : State) :
      Ends (ds.foldlM (extendContext e run) ctx) s fun ctx' _ => ctx'.From e d := by
    induction ds generalizing ctx s with
    | nil => exact .pure h
    | cons q ds ih =>
        rw [List.foldlM_cons]
        exact (extendContext_from ht h q).bind fun _ s₁ h => ih h s₁
  exact hall _ ⟨rfl, List.forall_mem_nil _⟩ s

theorem ownerOf_of_isGeneric {t : Tree} {g : NodeId} (hg : (t.kind g).isGeneric = true) :
    ownerOf t (.parameter g) = none := by
  rw [ownerOf]
  split
  · next hk => simp [hk, Kind.isGeneric] at hg
  · rfl

variable {ext q : NodeId} {t : Tree} {ds : Declarations}

theorem subjectOwner_of_builtin {b : Builtin} (hn : t.kind n = .nameType x)
    (hx : Builtin.ofWord x.text = some b) :
    Declarations.subjectOwner t ds ext n = some (.builtin b) := by
  rw [Declarations.subjectOwner, hn]
  simp only [hx]

theorem subjectOwner_of_head {d q : NodeId} (hn : t.kind n = .nameType x)
    (hx : Builtin.ofWord x.text = none) (hparent : ds.parents.get? ext = some q)
    (hd : (ds.lookup t q x.text).head? = some d)
    (hkind : (t.kind d).isProduct = true ∨ (t.kind d).isTrait = true) :
    Declarations.subjectOwner t ds ext n = some (.decl d) := by
  obtain ⟨rest, hlookup⟩ := List.head?_eq_some_iff.mp hd
  rw [Declarations.subjectOwner, hn]
  simp only [hx, hparent, Option.bind_some, hlookup, List.findSome?_cons]
  cases hk : t.kind d with
  | product i y gs ms memberwise => rfl
  | trait i y ms => rfl
  | _ => simp [hk, Kind.isProduct, Kind.isTrait] at hkind

theorem typeName_owner (hn : e.tree.kind n = .nameType x) (hself : x.text ≠ "Self")
    (hctx : ctx.From e q) (hparent : e.decls.parents.get? ext = some q)
    (halias : ∀ d, (e.decls.lookup e.tree q x.text).head? = some d →
      (e.tree.kind d).isTypeAlias = false) :
    Ends (typeName e run n x ctx) s fun ty _ => ∀ o, ownerOf e.tree ty = some o →
      Declarations.subjectOwner e.tree e.decls ext n = some o := by
  have hrefer {s₁ : State} {a : Ty} {r : Reference}
      (h : ∀ o, ownerOf e.tree a = some o →
        Declarations.subjectOwner e.tree e.decls ext n = some o) :
      Ends (refer n r >>= fun _ => pure a) s₁ fun ty _ => ∀ o, ownerOf e.tree ty = some o →
        Declarations.subjectOwner e.tree e.decls ext n = some o :=
    .bind .any fun _ _ _ => .pure h
  have herror {s₁ : State} {c : Complaint} : Ends (complain e x.site c >>= fun _ => pure Ty.error)
      s₁ fun ty _ => ∀ o, ownerOf e.tree ty = some o →
        Declarations.subjectOwner e.tree e.decls ext n = some o :=
    .bind .any fun _ _ _ => .pure fun o ho => absurd ho (by simp [ownerOf])
  rw [typeName, if_neg hself]
  dsimp only
  split
  · next g hg =>
      refine hrefer fun o ho => ?_
      rw [ownerOf_of_isGeneric (hctx.generics g (List.mem_of_find?_eq_some hg))] at ho
      cases ho
  · split
    · next b hb =>
        refine hrefer fun o ho => ?_
        rw [subjectOwner_of_builtin hn hb, ← ho, ownerOf]
    · next hb =>
        rw [hctx.scope]
        split
        · exact herror
        · next d hd =>
            have hhead := subjectOwner_of_head hn hb hparent hd
            have hplain := halias d hd
            cases hk : e.tree.kind d with
            | product i y gs ms memberwise =>
                simp only [typeDenoted, hk, pure_bind]
                refine hrefer fun o ho => ?_
                rw [hhead (.inl (by rw [hk]; rfl)), ← ho, ownerOf]
            | trait i y ms =>
                simp only [typeDenoted, hk, pure_bind]
                refine hrefer fun o ho => ?_
                rw [hhead (.inr (by rw [hk]; rfl)), ← ho, ownerOf]
            | associated i y =>
                simp only [typeDenoted, hk, pure_bind]
                exact hrefer fun o ho => absurd ho (by simp [ownerOf, hk])
            | generic y =>
                simp only [typeDenoted, hk, pure_bind]
                exact hrefer fun o ho => absurd ho (by simp [ownerOf, hk])
            | typeAlias i y aliased => simp [hk, Kind.isTypeAlias] at hplain
            | _ =>
                simp only [typeDenoted, hk]
                exact herror

structure NamesPlainly (e : Env) (ext n : NodeId) : Prop where
  subject : (e.tree.kind ext).subject? = some n
  name : ∃ x, e.tree.kind n = .nameType x ∧ x.text ≠ "Self" ∧
    ∀ q d, e.decls.parents.get? ext = some q → (e.decls.lookup e.tree q x.text).head? = some d →
      (e.tree.kind d).isTypeAlias = false

def Owns (e : Env) (ext n : NodeId) (ty : Ty) : Prop :=
  ∀ o, ownerOf e.tree ty = some o → e.decls.parents.get? ext ≠ none ∧
    Declarations.subjectOwner e.tree e.decls ext n = some o

theorem owns_error : Owns e ext n .error := fun _ ho => absurd ho (by simp [ownerOf])

section Resolving

variable (ht : e.tree.WellFormed) (h : NamesPlainly e ext n)

include h

theorem typeExpr_owns (hctx : ctx.From e q) (hparent : e.decls.parents.get? ext = some q)
    (fuel : Nat) (s : State) :
    Ends (perform e fuel (.typeExpr n ctx)) s fun ty _ => Owns e ext n ty := by
  cases fuel with
  | zero => exact fun _ _ hnone => absurd hnone (by simp [perform])
  | succ fuel =>
      obtain ⟨x, hn, hself, halias⟩ := h.name
      change Ends (typeExpr e (perform e fuel) n ctx) s _
      rw [typeExpr, hn]
      refine (typeName_owner hn hself hctx hparent fun d => halias q d hparent).bind
        fun ty _ hty => .bind .any fun _ _ _ => .pure fun o ho => ?_
      exact ⟨by simp [hparent], hty o ho⟩

include ht

theorem resolve_owns (fuel : Nat) (s : State) :
    Ends (subject.resolve e (perform e fuel) ext n) s fun ty _ => Owns e ext n ty := by
  have hremember {ty : Ty} (hty : Owns e ext n ty) (s₁ : State) : Ends (do
      modify fun s => { s with subjects := s.subjects.insert ext ty }
      pure ty) s₁ fun ty _ => Owns e ext n ty := .bind .any fun _ _ _ => .pure hty
  rw [subject.resolve]
  split
  · next q hparent =>
      rw [← bind_assoc]
      refine Ends.bind ((contextOf_from ht q).bind fun _ s₁ hctx => ?_) fun _ s₁ hty =>
        hremember hty s₁
      exact typeExpr_owns h hctx hparent fuel s₁
  · rw [pure_bind]
    exact hremember owns_error s

theorem subject_owns (fuel : Nat) (hfirst : s.subjects.get? ext = none) :
    Ends (perform e fuel (.subject ext)) s fun ty _ => Owns e ext n ty := by
  cases fuel with
  | zero => exact fun _ _ hnone => absurd hnone (by simp [perform])
  | succ fuel =>
      have hsubject := h.subject
      change Ends (subject e (perform e fuel) ext) s _
      rw [subject]
      refine .get ?_
      rw [hfirst]
      dsimp only
      split
      · next hk =>
          rw [hk] at hsubject
          cases hsubject
          exact resolve_owns ht h fuel s
      · next hk =>
          rw [hk] at hsubject
          cases hsubject
          exact resolve_owns ht h fuel s
      · exact .pure owns_error

end Resolving

/-- An extension whose subject is a name and no alias, and is declared by no extension but those
around it, is filed under the type that the checker finds, and its members are found there. -/
theorem subject_extends {t : Tree} (ht : t.WellFormed) (h : NamesPlainly ⟨t, .ofTree t⟩ ext n)
    (hearly : Declarations.Early t ext n) {fuel : Nat} {s s' : State} {ty : Ty} {o : Owner}
    (hfirst : s.subjects.get? ext = none)
    (hrun : perform ⟨t, .ofTree t⟩ fuel (.subject ext) s = some (ty, s'))
    (howner : ownerOf t ty = some o) :
    (Declarations.ofTree t).extended.get? ext = some o ∧
      ∀ m ∈ (t.kind ext).members, Declarations.Lists t (.ofTree t) o m := by
  obtain ⟨hseen, hnamed⟩ := subject_owns ht h fuel hfirst ty s' hrun o howner
  have hextends := Declarations.extends_ofTree ht h.subject hearly hseen
  have hfiled := hextends.filed.trans hnamed
  exact ⟨hfiled, hextends.lists o hfiled⟩

def cellDocument : File :=
  .document "file:///main.orca" "
    extension Cell \x7b fun twice(n: Int) -> Int \x7b return n + n \x7d init(n: Int) \x7b \x7d \x7d
    type Cell \x7b var n: Int \x7d"

theorem early_of_forall {t : Tree} (hn : t.kind n = .nameType x)
    (h : ∀ e < t.size, (t.kind e).waits = true → ∀ m ∈ (t.kind e).members,
      ∀ v ∈ t.declaredBy m, (t.kind v).declared ≠ some x.text) :
    Declarations.Early t ext n := by
  rintro y e hy ⟨hwaits, m, hm, v, hv, hdeclared⟩
  obtain rfl : y = x := by simpa using hy.symm.trans hn
  have he : e < t.size := Tree.lt_size_of_child ((Kind.members_sublist hwaits).subset hm)
  exact absurd hdeclared (h e he hwaits m hm v hv)

theorem subject_extends_cell : ∃ t ty s', Tree.parseModule .empty "main" [cellDocument] = .ok t ∧
    NamesPlainly ⟨t, .ofTree t⟩ 14 0 ∧ Declarations.Early t 14 0 ∧
    perform ⟨t, .ofTree t⟩ 3 (.subject 14) (.initial .empty) = some (ty, s') ∧
    ownerOf t ty = some (.decl 22) ∧
    (Declarations.ofTree t).extended.get? 14 = some (.decl 22) ∧
    Declarations.Lists t (.ofTree t) (.decl 22) 9 ∧
    Declarations.Lists t (.ofTree t) (.decl 22) 13 := by
  have hrun : (Tree.parseModule .empty "main" [cellDocument]).toOption.any (fun t =>
      decide ((t.kind 14).subject? = some 0) &&
        ((t.kind 0).isType && decide ((t.kind 0).spelled = some "Cell")) &&
        ((Declarations.ofTree t).parents.get? 14).all (fun q =>
          ((Declarations.ofTree t).lookup t q "Cell").all fun d => !(t.kind d).isTypeAlias) &&
        decide (∀ e < t.size, (t.kind e).waits = true → ∀ m ∈ (t.kind e).members,
          ∀ v ∈ t.declaredBy m, (t.kind v).declared ≠ some "Cell") &&
        Option.any (fun r => decide (ownerOf t r.1 = some (.decl 22)))
          (perform ⟨t, .ofTree t⟩ 3 (.subject 14) (.initial .empty)) &&
        decide ((t.kind 14).members = [9, 13])) = true := by
    rw [Tree.parseModule, Tree.parseUnits, Tree.parseUnit, Layout.ofFile_of_text cellDocument rfl]
    decide +kernel
  obtain ⟨t, hsome, hrun⟩ := (Option.any_eq_true _ _).mp hrun
  simp only [Bool.and_eq_true, decide_eq_true_eq] at hrun
  obtain ⟨⟨⟨⟨⟨hsubject, htype, hspelled⟩, halias⟩, hearly⟩, hperform⟩, hmembers⟩ := hrun
  have hparse : Tree.parseModule .empty "main" [cellDocument] = .ok t := by
    cases hp : Tree.parseModule .empty "main" [cellDocument] with
    | error e => simp [hp, Except.toOption] at hsome
    | ok t' => simpa [hp, Except.toOption] using hsome
  have ht := Tree.parseModule_wellFormed Tree.wellFormed_empty hparse
  obtain ⟨x, hx, hcell⟩ : ∃ x, t.kind 0 = .nameType x ∧ x.text = "Cell" := by
    cases hk : t.kind 0 with
    | nameType x => exact ⟨x, rfl, by simpa [hk, Kind.spelled] using hspelled⟩
    | tupleType es => simp [hk, Kind.spelled] at hspelled
    | _ => simp [hk, Kind.isType] at htype
  obtain ⟨⟨ty, s'⟩, hresult, howner⟩ := (Option.any_eq_true _ _).mp hperform
  have howner : ownerOf t ty = some (.decl 22) := of_decide_eq_true howner
  have hplain : NamesPlainly ⟨t, .ofTree t⟩ 14 0 := by
    refine ⟨hsubject, x, hx, by simp [hcell], fun q d hq hd => ?_⟩
    rw [hq, Option.all_some] at halias
    have hall := List.all_eq_true.mp halias d (hcell ▸ List.mem_of_mem_head? hd)
    simpa using hall
  have hearly' : Declarations.Early t 14 0 := early_of_forall hx (hcell ▸ hearly)
  obtain ⟨hfiled, hlists⟩ := subject_extends ht hplain hearly' (by simp [State.initial])
    hresult howner
  rw [hmembers] at hlists
  exact ⟨t, ty, s', hparse, hplain, hearly', hresult, howner, hfiled, hlists 9 (by simp),
    hlists 13 (by simp)⟩

/-- The members of extensions that are not found under the types to which the subjects come, if
the module of one file is accepted. -/
def strays (text : String) : Option (List String) :=
  match Tree.parseModule .empty "main" [.document "file:///main.orca" text] with
  | .error _ => none
  | .ok t =>
      match final t (fuelFor t) with
      | none => none
      | some s =>
          if s.diagnostics.containsError then none
          else some ((List.range t.size).flatMap fun ext =>
            match (s.subjects.get? ext).bind (ownerOf t) with
            | none => []
            | some o => ((t.kind ext).members.flatMap t.declaredBy).filterMap fun v =>
                match (t.kind v).declared with
                | some x =>
                    if v ∈ (Declarations.ofTree t).named (.type o) x then none else some x
                | none => none)

/-- What extends an alias is filed nowhere, and what extends a name that another extension declares
later is not filed under that. -/
theorem members_stray :
    (∃ text, strays text = some ["f"]) ∧ ∃ text, strays text = some ["g"] := by
  refine ⟨⟨"type P \x7b\x7d\ntypealias A = P\nextension A \x7b fun f() \x7b\x7d \x7d\n", ?_⟩, "
    type Q \x7b\x7d
    type P \x7b extension Q \x7b fun g() \x7b\x7d \x7d \x7d
    extension P \x7b type Q \x7b\x7d \x7d", ?_⟩
  · decide +kernel
  · decide +kernel

end Check

end LanguageService
