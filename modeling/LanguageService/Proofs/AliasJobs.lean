import LanguageService.Proofs.Spared
import LanguageService.Proofs.Operators

namespace LanguageService

theorem Tree.Lettered.hasSignature_of_operator {t : Tree} (h : t.Lettered) {n l r d : NodeId}
    {op : Name} (hn : t.kind n = .binary l op r) (hd : (t.kind d).declared = some op.text) :
    (t.kind d).hasSignature = true := by
  refine Kind.hasSignature_of_isDeclaration (Kind.isDeclaration_of_declared hd) ?_
  cases hk : t.kind d with
  | typeAlias i x k =>
      refine absurd ?_ (h.operator_ne_alias hn hk)
      simpa [hk, Kind.declared, Kind.declares] using hd.symm
  | _ => rfl

namespace Check

/-- A job that does not work out what is written for an alias, unless it works out the alias. -/
def Job.Aloof (t : Tree) : Job → Prop
  | signature d => (t.kind d).hasSignature = true
  | expr n _ => (t.kind n).isExpr = true
  | typeExpr n _ => (t.kind n).isType = true ∧ ∀ d, ¬ t.WrittenFor d n
  | _ => True

theorem Job.Aloof.grounded {t : Tree} {s : State} {j : Job} (h : j.Aloof t) : j.Grounded t s := by
  cases j with
  | typeExpr n ctx => exact ⟨h.1, fun d hd => absurd hd (h.2 d)⟩
  | signature d => exact h
  | expr n ctx => exact h
  | _ => trivial

theorem Job.Aloof.not_unfolded {t : Tree} (ht : t.WellFormed) {j : Job} (h : j.Aloof t)
    {d m : NodeId} (hm : t.WrittenFor d m) : ¬ j.Unfolded t m := by
  cases j with
  | typeExpr n ctx => exact fun hbelow => h.2 d (hm.of_below ht h.1 hbelow)
  | _ => exact id

variable {e : Env} {run : Run}

section Steps

variable (ht : e.tree.WellFormed)

theorem complain_harmless (site : Site) (c : Complaint) : Harmless e.tree (complain e site c) :=
  fun s hs => (complain_spec e site c s).mono fun _ _ h => h.1.expanding hs

theorem expect_harmless (expected found : Ty) (n : NodeId) :
    Harmless e.tree (expect e expected found n) :=
  fun s hs => (expect_spec e expected found n s).mono fun _ _ h => h.1.expanding hs

include ht

theorem refer_harmless {n : NodeId} (hn : (e.tree.kind n).isType = false) (r : Reference) :
    Harmless e.tree (refer n r) := by
  refine fun s hs => .modify ?_
  have hnot : (e.tree.kind n).isType ≠ true := by simp [hn]
  exact (hs.refer (shuns_of_isType ht hn) fun _ _ hw => absurd (hw.isType ht) hnot).elsewhere ht hn

theorem setType_harmless {n : NodeId} (hn : (e.tree.kind n).isType = false)
    (halias : (e.tree.kind n).isTypeAlias = false) (ty : Ty) :
    Harmless e.tree (setType n ty) := by
  refine fun s hs => .modify ?_
  exact (hs.setType ty halias (shuns_of_isType ht hn)).elsewhere ht hn

theorem setSignature_harmless {d : NodeId} (hd : (e.tree.kind d).hasSignature = true) (ty : Ty) :
    Harmless e.tree (setType d ty) :=
  setType_harmless ht (Kind.isType_of_isDeclaration (Kind.isDeclaration_of_hasSignature hd))
    (Kind.isTypeAlias_of_hasSignature hd) ty

omit ht in
theorem frames_harmless {f : State → List Frame}
    (hf : ∀ s, Expanded e.tree s → ∀ fr ∈ f s, ∀ q ∈ fr, (e.tree.kind q.2).hasSignature = true) :
    Harmless e.tree (modify fun s => { s with frames := f s }) :=
  fun s hs => .modify (hs.same id rfl rfl rfl (hf s hs))

omit ht in
theorem withFrames_harmless {α : Type} {frames : List Frame} {m : CheckM α}
    (hframes : ∀ f ∈ frames, ∀ q ∈ f, (e.tree.kind q.2).hasSignature = true)
    (hm : Harmless e.tree m) : Harmless e.tree (withFrames frames m) := by
  refine .get fun s hs => ?_
  have hback : Harmless e.tree (modify fun s' => { s' with frames := s.frames }) :=
    frames_harmless fun _ _ => hs.frames
  exact ((frames_harmless fun _ _ => hframes).bind fun _ => hm.bind fun a =>
    hback.bind fun _ => .pure a) s hs

end Steps

section Runs

variable (ht : e.tree.WellFormed) (hrun : Unfolds e.tree run)

include ht hrun

theorem Unfolds.harmless {j : Job} (hj : j.Aloof e.tree) : Harmless e.tree (run j) := by
  intro s hs
  refine (hrun j s hs hj.grounded).mono fun _ _ h => ⟨h.1.spares.within ?_, h.1.expanded⟩
  exact fun _ _ hm _ hin => hj.not_unfolded ht hm hin

theorem typePart_harmless {n q : NodeId} {ctx : Context}
    (hn : (Kind.isType, n) ∈ (e.tree.kind q).parts) (hq : (e.tree.kind q).isType = false)
    (hq' : (e.tree.kind q).isTypeAlias = false) : Harmless e.tree (run (.typeExpr n ctx)) :=
  hrun.harmless ht ⟨ht.fits q _ hn, fun _ => Tree.not_writtenFor_of_part ht hn hq hq'⟩

theorem exprPart_harmless {n q : NodeId} {ctx : Context}
    (hn : (Kind.isExpr, n) ∈ (e.tree.kind q).parts) : Harmless e.tree (run (.expr n ctx)) :=
  hrun.harmless ht (ht.fits q _ hn)

theorem contextOf_harmless (d : NodeId) : Harmless e.tree (contextOf e run d) := by
  refine .foldlM (fun ctx q => ?_) _ _
  have hself : Harmless e.tree (extendContext.subjectSelf run ctx q) := by
    rw [extendContext.subjectSelf]
    split
    · exact .pure _
    · exact (hrun.harmless ht (j := .subject q) trivial).bind fun _ => .pure _
  rw [extendContext]
  split
  · exact .pure _
  · exact .pure _
  · exact .pure _
  · exact .pure _
  · exact hself
  · exact hself
  · exact .pure _

theorem subject_harmless (ext : NodeId) : Harmless e.tree (subject e run ext) := by
  have hresolve {n : NodeId} (hn : (Kind.isType, n) ∈ (e.tree.kind ext).parts)
      (hq : (e.tree.kind ext).isType = false) (hq' : (e.tree.kind ext).isTypeAlias = false) :
      Harmless e.tree (subject.resolve e run ext n) := by
    have hremember (ty : Ty) : Harmless e.tree (do
        modify fun s => { s with subjects := s.subjects.insert ext ty }
        pure ty) :=
      .bind (fun s hs => .modify (hs.same id rfl rfl rfl hs.frames)) fun _ => .pure ty
    rw [subject.resolve]
    split
    · rw [← bind_assoc]
      refine .bind ?_ hremember
      exact (contextOf_harmless ht hrun _).bind fun _ => typePart_harmless ht hrun hn hq hq'
    · exact .bind (.pure _) hremember
  rw [subject]
  refine .get fun s hs => ?_
  split
  · exact .pure (.refl hs)
  · split
    · next hk =>
        exact hresolve (n := _) (by simp [hk, Kind.parts]) (by simp [hk, Kind.isType])
          (by simp [hk, Kind.isTypeAlias]) s hs
    · next hk =>
        exact hresolve (n := _) (by simp [hk, Kind.parts]) (by simp [hk, Kind.isType])
          (by simp [hk, Kind.isTypeAlias]) s hs
    · exact .pure (.refl hs)

section Signatures

theorem functionType_harmless {d : NodeId} {ps : List NodeId} {output : Option NodeId}
    (hps : ∀ p ∈ ps, (Kind.isParameter, p) ∈ (e.tree.kind d).parts)
    (houtput : ∀ o ∈ output, (Kind.isType, o) ∈ (e.tree.kind d).parts)
    (hd : (e.tree.kind d).isType = false) (halias : (e.tree.kind d).isTypeAlias = false) :
    Harmless e.tree (functionType e run d ps output) := by
  rw [functionType]
  refine .bind (.mapM fun p hp => ?_) fun inputs => ?_
  · exact hrun.harmless ht (j := .signature p)
      (Kind.hasSignature_of_isParameter (ht.fits d _ (hps p hp)))
  · split
    · exact .pure _
    · next o =>
        exact .bind (contextOf_harmless ht hrun d) fun _ =>
          .bind (typePart_harmless ht hrun (houtput o rfl) hd halias) fun _ => .pure _

variable (hds : e.decls.Sane e.tree)

omit ht hrun in
theorem exists_storedOf {p v : NodeId} (h : storedFor e p = some v) :
    ∃ owner, v ∈ e.decls.storedOf owner := by
  obtain ⟨i, -, h⟩ := Option.bind_eq_some_iff.mp h
  split at h
  · obtain ⟨owner, -, h⟩ := Option.bind_eq_some_iff.mp h
    obtain ⟨k, -, h⟩ := Option.bind_eq_some_iff.mp h
    exact ⟨owner, List.mem_of_getElem? h⟩
  · cases h

omit ht hrun in
include hds in
theorem storedFor_hasSignature {p v : NodeId} (h : storedFor e p = some v) :
    (e.tree.kind v).hasSignature = true := by
  obtain ⟨owner, hv⟩ := exists_storedOf h
  exact hds.hasSignature_storedOf hv

theorem varType_harmless (v : NodeId) : Harmless e.tree (varType e run v) := by
  rw [varType]
  split
  · exact .pure _
  · next b _ =>
      refine .bind (contextOf_harmless ht hrun b) fun ctx => .bind ?_ fun _ => .typeOf fun _ =>
        .pure _
      exact withFrames_harmless (List.forall_mem_nil _)
        (hrun.harmless ht (j := .binding b ctx false) trivial)

include hds

theorem declaredType_harmless (d : NodeId) : Harmless e.tree (declaredType e run d) := by
  have hsignatures {ps : List NodeId} (hps : ∀ p ∈ ps, (e.tree.kind p).hasSignature = true) :
      Harmless e.tree (ps.mapM fun p => run (.signature p)) :=
    .mapM fun p hp => hrun.harmless ht (j := .signature p) (hps p hp)
  rw [declaredType]
  split
  · next hk =>
      exact .bind (contextOf_harmless ht hrun d) fun _ => typePart_harmless ht hrun (q := d)
        (by simp [hk, Kind.parts]) (by simp [hk, Kind.isType]) (by simp [hk, Kind.isTypeAlias])
  · split
    · next v hv => exact hrun.harmless ht (j := .signature v) (storedFor_hasSignature hds hv)
    · exact .pure _
  · next hk =>
      exact functionType_harmless ht hrun (by simp +contextual [hk, Kind.parts])
        (by simp +contextual [hk, Kind.parts]) (by simp [hk, Kind.isType])
        (by simp [hk, Kind.isTypeAlias])
  · next hk =>
      exact functionType_harmless ht hrun (by simp +contextual [hk, Kind.parts])
        (by simp +contextual [hk, Kind.parts]) (by simp [hk, Kind.isType])
        (by simp [hk, Kind.isTypeAlias])
  · next hk =>
      refine .bind (.mapM fun p hp => hrun.harmless ht (j := .signature p) ?_) fun _ =>
        .bind (contextOf_harmless ht hrun d) fun _ => .pure _
      exact Kind.hasSignature_of_isParameter
        (ht.fits d (Kind.isParameter, p) (by simp [hk, Kind.parts, hp]))
  · next hk =>
      exact functionType_harmless ht hrun (by simp +contextual [hk, Kind.parts])
        (by simp +contextual [hk, Kind.parts]) (by simp [hk, Kind.isType])
        (by simp [hk, Kind.isTypeAlias])
  · exact varType_harmless ht hrun d
  · exact .pure _

theorem signature_harmless {d : NodeId} (hd : (e.tree.kind d).hasSignature = true) :
    Harmless e.tree (signature e run d) := by
  rw [signature]
  refine .typeOf fun known => ?_
  split
  · exact .pure _
  · intro s hs
    refine (start_spec d s).bind ?_
    rintro fresh s₁ ⟨hfresh, hbusy⟩
    split
    · next hstart =>
        obtain ⟨hidle, rfl⟩ := hfresh hstart
        refine (declaredType_harmless ht hrun hds d _ (hs.start d)).bind ?_
        intro ty s₂ h
        have h := h.started hidle
        refine .bind (.modify (Q := fun _ s' => s' = _) rfl) ?_
        rintro - s₃ rfl
        exact (setSignature_harmless ht hd ty _ h.expanded).bind fun _ s₄ h' => .pure (h.trans h')
    · next hstart =>
        obtain ⟨-, rfl⟩ := hbusy (by simpa using hstart)
        exact .pure (.refl hs)

omit hds in
theorem valueType_harmless {d : NodeId} (hd : (e.tree.kind d).isDeclaration = true) :
    Harmless e.tree (valueType e run d) := by
  rw [valueType]
  split
  · exact .pure _
  · exact .pure _
  · exact .bind (hrun.harmless ht (j := .typeAlias d) trivial) fun _ => .pure _
  · exact .pure _
  · exact .pure _
  · exact .pure _
  · next halias _ _ _ =>
      refine hrun.harmless ht (j := .signature d) (Kind.hasSignature_of_isDeclaration hd ?_)
      cases hk : e.tree.kind d with
      | typeAlias i x k => exact (halias i x k hk).elim
      | _ => rfl

end Signatures

section Exprs

variable (hds : e.decls.Sane e.tree) {n : NodeId} {ctx : Context}

omit hrun in
theorem referAt_harmless (hn : (e.tree.kind n).isExpr = true) (r : Reference) :
    Harmless e.tree (refer n r) := by
  refine refer_harmless ht ?_ r
  cases hk : e.tree.kind n <;> simp_all [Kind.isType, Kind.isExpr]

omit ht hrun in
theorem arguments_harmless (n : NodeId) (args : List NodeId) (inputs found : List Ty) :
    Harmless e.tree (arguments e n args inputs found) := by
  have heach (xs : List (NodeId × Ty × Ty)) : Harmless e.tree (checkEach e xs) := by
    induction xs with
    | nil => exact .pure ()
    | cons x xs ih => exact .bind (expect_harmless _ _ _) fun _ => ih
  rw [arguments]
  split
  · exact complain_harmless _ _
  · exact heach _

include hds

theorem unqualified_harmless (hn : (e.tree.kind n).isExpr = true) (x : Name) :
    Harmless e.tree (unqualified e run n x ctx) := by
  have hrefer (r : Reference) : Harmless e.tree (refer n r) := referAt_harmless ht hn r
  rw [unqualified]
  split
  · split
    · exact .pure _
    · exact .bind (complain_harmless _ _) fun _ => .pure _
  · refine .get fun s hs => ?_
    split
    · next d hd =>
        obtain ⟨f, hf, hfind⟩ := List.exists_of_findSome?_eq_some hd
        obtain ⟨q, hq, rfl⟩ := Option.map_eq_some_iff.mp hfind
        have hsignature := hs.frames f hf q (List.mem_of_find?_eq_some hq)
        exact ((hrefer _).bind fun _ => hrun.harmless ht (j := .signature q.2) hsignature) s hs
    · split
      · next d hd =>
          exact ((hrefer _).bind fun _ => valueType_harmless ht hrun
            (Kind.isDeclaration_of_declared (hds.lookup hd).1)) s hs
      · split
        · exact ((hrefer _).bind fun _ => .pure _) s hs
        · split
          · exact ((hrefer _).bind fun _ => .pure _) s hs
          · exact ((complain_harmless _ _).bind fun _ => .pure _) s hs

theorem qualified_harmless (hn : (e.tree.kind n).isExpr = true) (domain : Ty) (x : Name) :
    Harmless e.tree (qualified e run n domain x) := by
  have hmember {d : NodeId} (r : Reference) (hd : (e.tree.kind d).isDeclaration = true) :
      Harmless e.tree (refer n r >>= fun _ => valueType e run d) :=
    .bind (referAt_harmless ht hn r) fun _ => valueType_harmless ht hrun hd
  have hnone : Harmless e.tree (noMember e domain x) :=
    .bind (complain_harmless _ _) fun _ => .pure _
  unfold qualified
  split
  · exact .pure _
  · split
    · next d _ m hm =>
        exact hmember _ (Kind.isDeclaration_of_declared (hds.named (List.mem_of_mem_head? hm)).1)
    · exact hnone
  · split
    · split
      · next m hm => exact hmember _ (Kind.isDeclaration_of_declared (hds.member hm).1)
      · exact hnone
    · split
      · exact .pure _
      · exact hnone

theorem construction_harmless {callee d : NodeId} {args : List NodeId} {found : List Ty}
    (hcallee : (e.tree.kind callee).isExpr = true) :
    Harmless e.tree (construction e run n callee args d found) := by
  rw [construction]
  split
  · exact .bind (complain_harmless _ _) fun _ => .pure _
  · next i hi =>
      refine .bind (referAt_harmless ht hcallee _) fun _ =>
        .bind (hrun.harmless ht (j := .signature i)
          (hds.hasSignature_initializersOf (pick_mem hi))) fun ty => ?_
      dsimp only
      split
      · exact .bind (arguments_harmless _ _ _ _) fun _ => .pure _
      · exact .pure _

omit hds in
theorem exprParts_harmless {es : List NodeId}
    (hes : ∀ c ∈ es, (Kind.isExpr, c) ∈ (e.tree.kind n).parts) :
    Harmless e.tree (es.mapM fun c => run (.expr c ctx)) :=
  .mapM fun c hc => exprPart_harmless ht hrun (hes c hc)

theorem call_harmless {callee : NodeId} {args : List NodeId}
    (hcallee : (Kind.isExpr, callee) ∈ (e.tree.kind n).parts)
    (hargs : ∀ a ∈ args, (Kind.isExpr, a) ∈ (e.tree.kind n).parts) :
    Harmless e.tree (call e run n callee args ctx) := by
  rw [call]
  refine .bind (exprPart_harmless ht hrun hcallee) fun ty =>
    .bind (exprParts_harmless ht hrun hargs) fun found => ?_
  split
  · exact construction_harmless ht hrun hds (ht.fits n _ hcallee)
  · exact .pure _
  · exact .bind (complain_harmless _ _) fun _ => .pure _
  · exact .bind (arguments_harmless _ _ _ _) fun _ => .pure _
  · exact .pure _
  · exact .bind (complain_harmless _ _) fun _ => .pure _

theorem subscript_harmless {callee : NodeId} {args : List NodeId}
    (hcallee : (Kind.isExpr, callee) ∈ (e.tree.kind n).parts)
    (hargs : ∀ a ∈ args, (Kind.isExpr, a) ∈ (e.tree.kind n).parts) :
    Harmless e.tree (subscript e run n callee args ctx) := by
  rw [subscript]
  refine .bind (exprPart_harmless ht hrun hcallee) fun ty =>
    .bind (exprParts_harmless ht hrun hargs) fun found => ?_
  split
  · exact .pure _
  · exact .pure _
  · dsimp only
    split
    · exact .bind (complain_harmless _ _) fun _ => .pure _
    · next i hi =>
        have hmem := pick_mem hi
        have hsubscript : (e.tree.kind i).hasSignature = true := by
          cases howner : ownerOf e.tree ty with
          | none => simp [howner] at hmem
          | some o => exact hds.hasSignature_subscriptsOf (o := o) (by simpa [howner] using hmem)
        refine .bind (hrun.harmless ht (j := .signature i) hsubscript) fun _ => ?_
        split
        · exact .bind (arguments_harmless _ _ _ _) fun _ => .pure _
        · exact .pure _

theorem memberOperator_harmless (hletters : e.tree.Lettered) {l r : NodeId} {op : Name}
    (hn : e.tree.kind n = .binary l op r) (lhs rhs : Ty) :
    Harmless e.tree (memberOperator e run n op lhs rhs r) := by
  unfold memberOperator
  split
  · next d hd =>
      obtain ⟨o, -, hmember⟩ := Option.bind_eq_some_iff.mp hd
      have hsignature := hletters.hasSignature_of_operator hn (hds.member hmember).1
      refine .bind (referAt_harmless ht (by rw [hn]; rfl) _) fun _ =>
        .bind (hrun.harmless ht (j := .signature d) hsignature) fun _ => ?_
      split
      · exact .bind (expect_harmless _ _ _) fun _ => .pure _
      · exact .bind (complain_harmless _ _) fun _ => .pure _
      · exact .pure _
  · split
    · exact .pure _
    · exact .bind (complain_harmless _ _) fun _ => .pure _

theorem binary_harmless (hletters : e.tree.Lettered) {l r : NodeId} {op : Name}
    (hn : e.tree.kind n = .binary l op r) : Harmless e.tree (binary e run n l op r ctx) := by
  rw [binary]
  refine .bind (exprPart_harmless ht hrun (q := n) (by simp [hn, Kind.parts])) fun lhs =>
    .bind (exprPart_harmless ht hrun (q := n) (by simp [hn, Kind.parts])) fun rhs => ?_
  split
  · exact .pure _
  · exact .pure _
  · split
    · exact .bind (referAt_harmless ht (by rw [hn]; rfl) _) fun _ => .pure _
    · exact memberOperator_harmless ht hrun hds hletters hn _ _

theorem expr_harmless (hletters : e.tree.Lettered) (hn : (e.tree.kind n).isExpr = true) :
    Harmless e.tree (expr e run n ctx) := by
  have hset {m : CheckM Ty} (hm : Harmless e.tree m) : Harmless e.tree (m >>= fun ty => do
      setType n ty
      pure ty) := by
    refine .bind hm fun ty => .bind (setType_harmless ht ?_ ?_ ty) fun _ => .pure ty <;>
      cases hk : e.tree.kind n <;> simp_all [Kind.isType, Kind.isTypeAlias, Kind.isExpr]
  have harg {callee : NodeId} {args : List (Option Name × NodeId)}
      (hparts : (e.tree.kind n).parts =
        (Kind.isExpr, callee) :: args.map fun a => (Kind.isExpr, a.2)) :
      ∀ a ∈ args.map (·.2), (Kind.isExpr, a) ∈ (e.tree.kind n).parts := by
    intro a ha
    obtain ⟨b, hb, rfl⟩ := List.mem_map.mp ha
    rw [hparts]
    exact List.mem_cons_of_mem _ (List.mem_map.mpr ⟨b, hb, rfl⟩)
  rw [expr]
  split
  · exact hset (.pure _)
  · exact hset (.pure _)
  · exact hset (.pure _)
  · exact hset (.pure _)
  · next hk =>
      rw [← bind_assoc]
      exact hset (.bind (exprPart_harmless ht hrun (q := n) (by simp [hk, Kind.parts])) fun _ =>
        qualified_harmless ht hrun hds hn _ _)
  · exact hset (unqualified_harmless ht hrun hds hn _)
  · next hk =>
      exact hset (call_harmless ht hrun hds (by simp [hk, Kind.parts])
        (harg (by rw [hk, Kind.parts])))
  · next hk =>
      exact hset (subscript_harmless ht hrun hds (by simp [hk, Kind.parts])
        (harg (by rw [hk, Kind.parts])))
  · next hk => exact hset (binary_harmless ht hrun hds hletters hk)
  · next hk =>
      rw [← bind_assoc]
      exact hset (.bind (exprParts_harmless ht hrun (n := n) (by simp [hk, Kind.parts])) fun _ =>
        .pure _)
  · exact hset (.pure _)

end Exprs

section Stmts

variable {ctx : Context}

omit hrun in
theorem bindVar_harmless {v : NodeId} (hv : (e.tree.kind v).isVar = true) (ty : Ty)
    (inBody : Bool) : Harmless e.tree (bindVar e v ty inBody) := by
  have hsignature := Kind.hasSignature_of_isVar hv
  have hbind (x : String) : Harmless e.tree
      (modify fun s => { s with frames := bindLocal x v s.frames }) :=
    frames_harmless fun s hs =>
      forall_mem_bindLocal (P := fun q => (e.tree.kind q.2).hasSignature = true) hsignature
        hs.frames
  unfold bindVar
  split
  · exact .bind (hbind _) fun _ => setSignature_harmless ht hsignature ty
  · exact setSignature_harmless ht hsignature ty

theorem pattern_harmless (p : NodeId) (ty : Ty) (inBody : Bool) :
    Harmless e.tree (pattern e run p ty inBody) := by
  have hpattern (q : NodeId) (ty : Ty) : Harmless e.tree (run (.pattern q ty inBody)) :=
    hrun.harmless ht (j := .pattern q ty inBody) trivial
  have hrefuse (n : NodeId) (unknown : List Ty) (k : Nat) :
      Harmless e.tree (parts.refuse e n ty k unknown) :=
    .bind (complain_harmless _ _) fun _ => .pure _
  have hparts (n : NodeId) (k : Nat) : Harmless e.tree (parts e n ty k) := by
    unfold parts
    split
    · exact .pure _
    · split
      · exact .pure _
      · exact hrefuse _ _ _
    · exact hrefuse _ _ _
  have heach (qs : List (NodeId × Ty)) : Harmless e.tree (patternParts run inBody qs) := by
    induction qs with
    | nil => exact .pure ()
    | cons q qs ih => exact .bind (hpattern _ _) fun _ => ih
  rw [pattern]
  split
  · next v hk =>
      exact bindVar_harmless ht (ht.fits p (Kind.isVar, v) (by simp [hk, Kind.parts])) ty inBody
  · exact .bind (hparts _ _) fun _ => heach _
  · exact .bind (hpattern _ _) fun _ => .pure _
  · exact .pure _

theorem bindingTypes_harmless {p sub : NodeId} {introducer : Site} {how : Introducer}
    {ascription initializer : Option NodeId}
    (hp : e.tree.kind p = .bindingPattern introducer how sub ascription) {b : NodeId}
    (hb : e.tree.kind b = .binding p initializer) :
    Harmless e.tree (bindingTypes e run p ascription initializer ctx) := by
  have hset (ty : Ty) : Harmless e.tree (do
      setType p ty
      pure ty) :=
    .bind (setType_harmless ht (by simp [hp, Kind.isType]) (by simp [hp, Kind.isTypeAlias]) ty)
      fun _ => .pure ty
  rw [bindingTypes_eq]
  refine .bind ?_ fun declared => .bind ?_ fun found => ?_
  · cases ascription with
    | none => exact .pure _
    | some a =>
        exact .bind (typePart_harmless ht hrun (q := p) (by simp [hp, Kind.parts])
          (by simp [hp, Kind.isType]) (by simp [hp, Kind.isTypeAlias])) fun _ => .pure _
  · cases initializer with
    | none => exact .pure _
    | some i =>
        exact .bind (exprPart_harmless ht hrun (q := b) (by simp [hb, Kind.parts])) fun _ => .pure _
  · split
    · exact .bind (expect_harmless _ _ _) fun _ => hset _
    · exact hset _

theorem binding_harmless (b : NodeId) (inBody : Bool) :
    Harmless e.tree (binding e run b ctx inBody) := by
  rw [binding]
  refine .get fun s hs => ?_
  split
  · exact .pure (.refl hs)
  · have hmark : Harmless e.tree
        (modify fun s => { s with checkedBindings := s.checkedBindings.insert b () }) :=
      fun s hs => .modify (hs.same id rfl rfl rfl hs.frames)
    refine (hmark.bind fun _ => ?_) s hs
    split
    · next p initializer hb =>
        split
        · next hp =>
            exact .bind (bindingTypes_harmless ht hrun hp hb) fun ty =>
              .bind (hrun.harmless ht (j := .pattern _ ty inBody) trivial) fun _ => .pure _
        · exact .pure _
    · exact .pure _

omit ht hrun in
theorem each_harmless {js : List Job} (hjs : ∀ j ∈ js, Harmless e.tree (run j)) :
    Harmless e.tree (each run js) := by
  rw [each_eq_mapM]
  exact .bind (.mapM hjs) fun _ => .pure _

theorem stmt_harmless (n : NodeId) : Harmless e.tree (stmt e run n ctx) := by
  have hstmt (c : NodeId) : Harmless e.tree (run (.stmt c ctx)) :=
    hrun.harmless ht (j := .stmt c ctx) trivial
  have heach {js : List Job} (hjs : ∀ j ∈ js, j.Aloof e.tree) : Harmless e.tree (each run js) :=
    each_harmless fun j hj => hrun.harmless ht (hjs j hj)
  have hcondition {c : NodeId} (hc : (Kind.isExpr, c) ∈ (e.tree.kind n).parts) :
      Harmless e.tree (condition e run c ctx) :=
    .bind (exprPart_harmless ht hrun hc) fun _ => expect_harmless _ _ _
  rw [stmt]
  split
  · next ss hk =>
      refine .bind (frames_harmless (f := fun s => [] :: s.frames) fun s hs => ?_) fun _ =>
        .bind (heach (by simp [Job.Aloof])) fun _ =>
          frames_harmless (f := fun s => s.frames.tail) fun s hs f hf =>
            hs.frames f (List.mem_of_mem_tail hf)
      exact List.forall_mem_cons.mpr ⟨List.forall_mem_nil _, hs.frames⟩
  · next hk =>
      dsimp only
      split
      · exact .bind (exprPart_harmless ht hrun (q := n) (by simp [hk, Kind.parts])) fun _ =>
          expect_harmless _ _ _
      · split
        · exact .pure _
        · exact complain_harmless _ _
  · next c hk =>
      have hc := ht.fits n (Kind.isExpr, c) (by simp [hk, Kind.parts])
      exact heach (by simpa [Job.Aloof] using hc)
  · next hk =>
      exact .bind (exprPart_harmless ht hrun (q := n) (by simp [hk, Kind.parts])) fun _ =>
        .bind (exprPart_harmless ht hrun (q := n) (by simp [hk, Kind.parts])) fun _ =>
          expect_harmless _ _ _
  · next hk =>
      exact .bind (hcondition (by simp [hk, Kind.parts])) fun _ => heach (by simp [Job.Aloof])
  · next hk =>
      exact .bind (hcondition (by simp [hk, Kind.parts])) fun _ => heach (by simp [Job.Aloof])
  · exact heach (by simp [Job.Aloof])
  · exact .pure _

end Stmts

end Runs

end Check

end LanguageService
