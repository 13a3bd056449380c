import LanguageService.Proofs.FulfillingJobs

namespace LanguageService.Check

variable {e : Env} {run : Run} {s : State} {ctx : Context}

section Looking

variable {t : Tree} {d n : NodeId}

theorem State.Looks.of_plain (hparameters : (t.kind n).hasParameters = false)
    (halias : (t.kind n).isTypeAlias = false) (hwaits : (t.kind n).waits = false)
    (hbinding : (t.kind n).isBinding = false) : s.Looks t n where
  holds := by simp [hparameters, halias]
  subject := by simp [hwaits]
  traits := by
    intro introducer subject ts ms hk
    simp [hk, Kind.waits] at hwaits
  checked := by simp [hbinding]

theorem State.Looks.of_isStmt (hn : (t.kind n).isStmt = true) : s.Looks t n := by
  cases hk : t.kind n <;> rw [hk] at hn <;> first | (cases hn; done) | skip
  all_goals exact .of_plain (by rw [hk]; rfl) (by rw [hk]; rfl) (by rw [hk]; rfl) (by rw [hk]; rfl)

theorem looks_of_inert (ht : t.WellFormed)
    (hn : (t.kind n).isInert = true ∨ (t.kind n).isExpr = true) :
    ∀ m, t.Below n m → s.Looks t m := by
  intro m hm
  have hm : (t.kind m).isInert = true ∨ (t.kind m).isExpr = true :=
    hn.imp (Tree.isInert_of_below ht · hm) (Tree.isExpr_of_below ht · hm)
  apply State.Looks.of_plain <;> cases hk : t.kind m <;>
    first
    | rfl
    | simp [hk, Kind.isInert, Kind.isType, Kind.isParameter, Kind.isGeneric,
        Kind.isBindingPattern, Kind.isPattern, Kind.isVar, Kind.isExpr] at hm

theorem looks_below (ht : t.WellFormed) (hd : s.Looks t d)
    (hparts : ∀ p ∈ (t.kind d).parts, p.1 ∈ [Kind.isType, Kind.isParameter, Kind.isGeneric,
      Kind.isBindingPattern, Kind.isExpr] ∨ ∀ m, t.Below p.2 m → s.Looks t m) :
    ∀ m, t.Below d m → s.Looks t m := by
  intro m hm
  rcases Tree.below_iff.mp hm with rfl | ⟨c, hc, hm⟩
  · exact hd
  · rw [Tree.children, ← Kind.parts_map_snd] at hc
    obtain ⟨p, hp, rfl⟩ := List.mem_map.mp hc
    rcases hparts p hp with hsort | hlooks
    · refine looks_of_inert ht ?_ m hm
      have hfits := ht.fits d p hp
      simp only [List.mem_cons, List.not_mem_nil, or_false] at hsort
      rcases hsort with heq | heq | heq | heq | heq <;> rw [heq] at hfits <;>
        simp [Kind.isInert, hfits]
    · exact hlooks m hm

end Looking

section Bindings

variable (ht : e.tree.WellFormed)

include ht

theorem bindVar_proceeds (hs : s.Orderly e.tree) {v : NodeId} {ty : Ty}
    (hv : (e.tree.kind v).isVar = true) (hty : ty.rooted e.tree = true) (inBody : Bool) :
    Proceeds e (bindVar e v ty inBody) s fun _ _ => True := by
  have hset {s₁ : State} (hs₁ : s₁.Orderly e.tree) :
      Proceeds e (setType v ty) s₁ fun _ _ => True := by
    refine (setType_proceeds ht hs₁ ?_ hty ?_).mono fun _ _ _ _ => trivial
    · cases hk : e.tree.kind v <;> simp_all [Kind.isVar, Kind.isExpr]
    · constructor <;> cases hk : e.tree.kind v <;>
        simp_all [Kind.isVar, Kind.writtenTypes, Kind.parameters?]
  have hbind (x : String) : ∀ f ∈ bindLocal x v s.frames, ∀ q ∈ f,
      (e.tree.kind q.2).hasSignature = true :=
    forall_mem_bindLocal (P := fun q => (e.tree.kind q.2).hasSignature = true)
      (Kind.hasSignature_of_isVar hv) hs.frames
  unfold bindVar
  split
  · exact (frames_proceeds hs (f := fun s => bindLocal _ v s.frames) (hbind _)).bind
      fun _ _ hkeeps _ => hset hkeeps.orderly
  · exact hset hs

omit ht in
theorem parts_proceeds (hs : s.Orderly e.tree) (p : NodeId) {ty : Ty}
    (hty : ty.rooted e.tree = true) (k : Nat) :
    Proceeds e (parts e p ty k) s fun as _ => ∀ a ∈ as, a.rooted e.tree = true := by
  have hunknown : ∀ a ∈ List.replicate k Ty.error, a.rooted e.tree = true := by
    intro a ha
    rw [List.eq_of_mem_replicate ha]
    rfl
  have hrefuse : Proceeds e (parts.refuse e p ty k (List.replicate k .error)) s fun as _ =>
      ∀ a ∈ as, a.rooted e.tree = true :=
    (complain_proceeds hs _ _).bind fun _ _ hkeeps _ => .pure hkeeps.orderly hunknown
  unfold parts
  split
  · exact .pure hs hunknown
  · split
    · rw [Ty.rooted, Ty.allRooted_eq_all, List.all_eq_true] at hty
      exact .pure hs hty
    · exact hrefuse
  · exact hrefuse

variable (hrun : Thorough e run)

omit ht in
include hrun in
theorem patternParts_proceeds (inBody : Bool) (qs : List (NodeId × Ty)) (hs : s.Orderly e.tree)
    (hqs : ∀ q ∈ qs, q.2.rooted e.tree = true) :
    Proceeds e (patternParts run inBody qs) s fun _ _ => True := by
  induction qs generalizing s with
  | nil => exact .pure hs trivial
  | cons q qs ih =>
      exact (hrun.job (j := .pattern q.1 q.2 inBody) hs (hqs q (by simp)) fun _ => id).bind
        fun _ _ hkeeps _ => ih hkeeps.orderly fun r hr => hqs r (by simp [hr])

include hrun

theorem pattern_proceeds (hs : s.Orderly e.tree) (p : NodeId) {ty : Ty}
    (hty : ty.rooted e.tree = true) (inBody : Bool) :
    Proceeds e (pattern e run p ty inBody) s fun _ _ => True := by
  rw [pattern]
  split
  · next v hk =>
      exact bindVar_proceeds ht hs (ht.fits p (Kind.isVar, v) (by simp [hk, Kind.parts])) hty inBody
  · next es _ =>
      refine (parts_proceeds hs p hty es.length).bind fun as _ hkeeps has =>
        patternParts_proceeds hrun inBody _ hkeeps.orderly fun q hq => ?_
      exact has q.2 (List.of_mem_zip hq).2
  · next sub _ _ =>
      exact (hrun.job (j := .pattern sub ty inBody) hs hty fun _ => id).bind
        fun _ _ hkeeps _ => .pure hkeeps.orderly trivial
  · exact .pure hs trivial

theorem bindingTypes_proceeds {b p sub : NodeId} {introducer : Site} {how : Introducer}
    {ascription initializer : Option NodeId} (hb : e.tree.kind b = .binding p initializer)
    (hp : e.tree.kind p = .bindingPattern introducer how sub ascription) (hs : s.Orderly e.tree)
    (hctx : ctx.Rooted e.tree) :
    Proceeds e (bindingTypes e run p ascription initializer ctx) s fun a s' =>
      a.rooted e.tree = true ∧ ∀ n ∈ ascription, s'.types.get? n ≠ none := by
  have hascription : Proceeds e (ascription.mapM fun a => run (.typeExpr a ctx)) s
      fun declared s' => (∀ a ∈ declared, a.rooted e.tree = true) ∧
        ∀ n ∈ ascription, s'.types.get? n ≠ none := by
    cases ascription with
    | none => exact .pure hs ⟨nofun, nofun⟩
    | some n =>
        rw [Option.mapM_some, map_eq_pure_bind]
        refine (typeExpr_job hrun hs
          (ht.fits p (Kind.isType, n) (by simp [hp, Kind.parts])) hctx).bind ?_
        rintro a s₁ hkeeps ⟨ha, htyped⟩
        refine .pure hkeeps.orderly ⟨?_, ?_⟩
        · rintro _ ⟨⟩
          exact ha
        · rintro _ ⟨⟩
          exact htyped
  have hinitializer {s₁ : State} (hs₁ : s₁.Orderly e.tree) :
      Proceeds e (initializer.mapM fun i => run (.expr i ctx)) s₁
        fun found _ => ∀ a ∈ found, a.rooted e.tree = true := by
    cases initializer with
    | none => exact .pure hs₁ nofun
    | some i =>
        rw [Option.mapM_some, map_eq_pure_bind]
        refine (operand_proceeds ht hrun (n := b) hs₁ hctx (by simp [hb, Kind.parts])
          (by simp [hb])).bind fun a s₂ hkeeps ha => .pure hkeeps.orderly ?_
        rintro _ ⟨⟩
        exact ha
  rw [bindingTypes_eq]
  refine hascription.bind ?_
  rintro declared s₁ hkeeps₁ ⟨hdeclared, htyped⟩
  refine (hinitializer hkeeps₁.orderly).bind fun found s₂ hkeeps₂ hfound => ?_
  have hty : ((declared.or found).getD .error).rooted e.tree = true := by
    cases declared with
    | some a => exact hdeclared a rfl
    | none =>
        cases found with
        | some a => exact hfound a rfl
        | none => rfl
  have hend {s₃ : State} (hkeeps₃ : Keeps e nowhere s₂ s₃) :
      Proceeds e (setType p ((declared.or found).getD .error) >>= fun _ =>
        pure ((declared.or found).getD .error)) s₃ fun a s' =>
          a.rooted e.tree = true ∧ ∀ n ∈ ascription, s'.types.get? n ≠ none := by
    refine (setType_proceeds ht hkeeps₃.orderly (by simp [hp, Kind.isExpr]) hty ?_).bind
      fun _ s₄ hkeeps₄ _ => .pure hkeeps₄.orderly ⟨hty, fun n hn => ?_⟩
    · constructor <;> simp [hp, Kind.writtenTypes, Kind.parameters?]
    · exact ((hkeeps₂.trans hkeeps₃).trans hkeeps₄).typed n (htyped n hn)
  split
  · exact (expect_proceeds hkeeps₂.orderly _ _ _).bind fun _ _ hkeeps₃ _ => hend hkeeps₃
  · exact hend (.refl hkeeps₂.orderly)

theorem binding_proceeds {b : NodeId} (hb : (e.tree.kind b).isBinding = true)
    (hs : s.Orderly e.tree) (hctx : ctx.Rooted e.tree) (inBody : Bool) :
    Proceeds e (binding e run b ctx inBody) s fun _ s' => s'.IsChecked b := by
  obtain ⟨p, initializer, hk⟩ := Kind.exists_of_isBinding hb
  have hpattern : (e.tree.kind p).isBindingPattern = true :=
    ht.fits b (Kind.isBindingPattern, p) (by simp [hk, Kind.parts])
  obtain ⟨introducer, how, sub, ascription, hp⟩ := Kind.exists_of_isBindingPattern hpattern
  rw [binding]
  refine .get ?_
  split
  · next hchecked => exact .pure hs hchecked
  · have hmark : Keeps e (· = b) s
        { s with checkedBindings := s.checkedBindings.insert b () } := by
      have haccrues : Accrues s
          { s with checkedBindings := s.checkedBindings.insert b () } := by
        refine ⟨id, fun _ => id, fun _ => id, fun _ => id, fun c hc => ?_, fun _ => id⟩
        rw [State.IsChecked, Table.contains, Table.get?_insert]
        split
        · rfl
        · exact hc
      refine ⟨haccrues, fun _ => rfl, ⟨hs.frames, hs.types, hs.subjects⟩, fun n hn h => ?_⟩
      refine h.later haccrues id id (fun hchecked => ?_) fun _ _ _ => rfl
      rwa [State.IsChecked, Table.contains, Table.get?_insert, if_neg (Ne.symm hn)] at hchecked
    simp only [hk, hp]
    refine Ends.bind (.modify (Q := fun _ s' => s' = _) rfl) ?_
    rintro - s₁ rfl
    refine Ends.bind (bindingTypes_proceeds ht hrun hk hp hmark.orderly hctx) ?_
    rintro ty s₂ ⟨hkeeps₂, hty, htyped⟩
    refine Ends.bind (hrun.job (j := .pattern sub ty inBody) hkeeps₂.orderly hty fun _ => id) ?_
    rintro - s₃ ⟨hkeeps₃, -⟩
    have hkeeps := hkeeps₂.trans hkeeps₃
    refine .pure ⟨(hmark.trans hkeeps.anywhere).shrink ?_, hkeeps.checked b ?_⟩
    · rintro _ rfl
      refine .inr ⟨fun _ => ?_, by simp [hk, Kind.subject?], ?_⟩
      · constructor <;> simp [hk, Kind.writtenTypes, Kind.parameters?]
      · intro p' i introducer' how' sub' a hk' hp' _
        obtain ⟨rfl, -⟩ := Kind.binding.inj (hk.symm.trans hk')
        obtain ⟨-, -, -, rfl⟩ := Kind.bindingPattern.inj (hp.symm.trans hp')
        exact hkeeps₃.typed a (htyped a rfl)
    · simp [State.IsChecked, Table.contains]

end Bindings

section Stmts

variable (ht : e.tree.WellFormed) (hrun : Thorough e run) {n : NodeId}

include ht hrun

theorem stmts_proceeds {ss : List NodeId} (hs : s.Orderly e.tree) (hctx : ctx.Rooted e.tree)
    (hss : ∀ c ∈ ss, (Kind.isStmt, c) ∈ (e.tree.kind n).parts) :
    Proceeds e (each run (ss.map fun c => .stmt c ctx)) s fun _ s' =>
      ∀ c ∈ ss, ∀ m, e.tree.Below c m → s'.Looks e.tree m := by
  refine (hrun.each hs (fun j hj => ?_) fun j hj => ?_).mono fun _ s' _ hdone c hc =>
    hdone _ (List.mem_map_of_mem hc)
  · obtain ⟨c, hc, rfl⟩ := List.mem_map.mp hj
    exact ⟨ht.fits n _ (hss c hc), hctx⟩
  · obtain ⟨c, -, rfl⟩ := List.mem_map.mp hj
    exact fun _ => id

theorem stmt_proceeds (hs : s.Orderly e.tree) (hn : (e.tree.kind n).isStmt = true)
    (hctx : ctx.Rooted e.tree) :
    Proceeds e (stmt e run n ctx) s fun _ s' => ∀ m, e.tree.Below n m → s'.Looks e.tree m := by
  have hname (d : NodeId) (x : Name) : e.tree.kind n ≠ .name (some d) x := by
    intro hk
    simp [hk, Kind.isStmt] at hn
  have hoperand {c : NodeId} {s₁ : State} (hs₁ : s₁.Orderly e.tree)
      (hc : (Kind.isExpr, c) ∈ (e.tree.kind n).parts) :
      Proceeds e (run (.expr c ctx)) s₁ fun a _ => a.rooted e.tree = true :=
    operand_proceeds ht hrun hs₁ hctx hc hname
  have hbelow {s' : State} (hparts : ∀ p ∈ (e.tree.kind n).parts, p.1 = Kind.isExpr ∨
      ∀ m, e.tree.Below p.2 m → s'.Looks e.tree m) :
      ∀ m, e.tree.Below n m → s'.Looks e.tree m :=
    looks_below ht (.of_isStmt hn) fun p hp => (hparts p hp).imp_left (by simp +contextual)
  have hconditional {c : NodeId} (ss : List NodeId)
      (hparts : (e.tree.kind n).parts = (Kind.isExpr, c) :: ss.map (Kind.isStmt, ·)) :
      Proceeds e (do
        condition e run c ctx
        each run (ss.map fun n => .stmt n ctx)) s fun _ s' =>
        ∀ m, e.tree.Below n m → s'.Looks e.tree m := by
    rw [condition, bind_assoc]
    refine (hoperand hs (by simp [hparts])).bind fun a s₁ hkeeps₁ _ => ?_
    refine (expect_proceeds hkeeps₁.orderly _ _ _).bind fun _ s₂ hkeeps₂ _ => ?_
    refine (stmts_proceeds ht hrun (n := n) hkeeps₂.orderly hctx
      (by simp +contextual [hparts])).mono
      fun _ s₃ _ hlooks => hbelow ?_
    rw [hparts]
    exact List.forall_mem_cons.mpr ⟨.inl rfl, List.forall_mem_map.mpr fun c hc =>
      .inr (hlooks c hc)⟩
  rw [stmt]
  cases hk : e.tree.kind n with
  | brace ss =>
      refine (frames_proceeds hs (f := fun s => [] :: s.frames)
        (List.forall_mem_cons.mpr ⟨List.forall_mem_nil _, hs.frames⟩)).bind
          fun _ s₁ hkeeps₁ _ => ?_
      refine (stmts_proceeds ht hrun (n := n) hkeeps₁.orderly hctx
        (by simp [hk, Kind.parts])).bind fun _ s₂ hkeeps₂ hlooks => ?_
      refine (frames_proceeds hkeeps₂.orderly (f := fun s => s.frames.tail) fun f hf =>
        hkeeps₂.orderly.frames f (List.mem_of_mem_tail hf)).mono fun _ s₃ hkeeps₃ _ => hbelow ?_
      simp only [hk, Kind.parts, List.forall_mem_map]
      exact fun c hc => .inr fun m hm => (hlooks c hc m hm).later hkeeps₃.toAccrues
  | ret i value =>
      dsimp only
      split
      · next v =>
          exact (hoperand hs (by simp [hk, Kind.parts])).bind fun _ _ hkeeps _ =>
            (expect_proceeds hkeeps.orderly _ _ _).mono fun _ _ _ _ =>
              hbelow (by simp [hk, Kind.parts])
      · split
        · exact .pure hs (hbelow (by simp [hk, Kind.parts]))
        · exact (complain_proceeds hs _ _).mono fun _ _ _ _ => hbelow (by simp [hk, Kind.parts])
  | expr c =>
      dsimp only
      rw [each_eq_mapM, List.mapM_cons]
      refine Proceeds.bind ((hoperand hs (by simp [hk, Kind.parts])).bind fun _ _ hkeeps _ =>
        .pure (Q := fun _ _ => True) hkeeps.orderly trivial) fun _ _ hkeeps _ => ?_
      exact .pure hkeeps.orderly (hbelow (by simp [hk, Kind.parts]))
  | assign l r =>
      refine (hoperand hs (by simp [hk, Kind.parts])).bind fun _ _ hkeeps₁ _ => ?_
      refine (hoperand hkeeps₁.orderly (by simp [hk, Kind.parts])).bind fun _ _ hkeeps₂ _ => ?_
      exact (expect_proceeds hkeeps₂.orderly _ _ _).mono fun _ _ _ _ =>
        hbelow (by simp [hk, Kind.parts])
  | loop i c b => exact hconditional [b] (by simp [hk, Kind.parts])
  | cond i c yes i' no => exact hconditional (yes :: no.toList) (by simp [hk, Kind.parts])
  | decl b =>
      have hb := ht.fits n (Kind.isBinding, b) (by simp [hk, Kind.parts])
      obtain ⟨p, i, hbk⟩ := Kind.exists_of_isBinding hb
      refine (hrun.single (j := .binding b ctx true) hs ⟨hb, hctx⟩ fun _ => id).mono
        fun _ s' _ hchecked => hbelow ?_
      simp only [hk, Kind.parts, List.mem_singleton, forall_eq]
      refine .inr (looks_below ht ?_ ?_)
      · constructor <;>
          simp [hbk, Kind.hasParameters, Kind.parameters?, Kind.isTypeAlias, Kind.waits]
        exact fun _ => hchecked
      · simp +contextual [hbk, Kind.parts, or_imp]
  | _ => simp [hk, Kind.isStmt] at hn

end Stmts

section Decls

variable (ht : e.tree.WellFormed) (hrun : Thorough e run) {d : NodeId}

include ht hrun

theorem bodies_proceeds {ps bs : List NodeId} (output : Ty) (hs : s.Orderly e.tree)
    (hps : ∀ p ∈ ps, (e.tree.kind p).isParameter = true)
    (hbs : ∀ b ∈ bs, (e.tree.kind b).isStmt = true) :
    Proceeds e (bodies e run d ps output bs) s fun _ s' =>
      ∀ b ∈ bs, ∀ m, e.tree.Below b m → s'.Looks e.tree m := by
  have hframe : ∀ f ∈ [parameterFrame e ps], ∀ q ∈ f, (e.tree.kind q.2).hasSignature = true :=
    List.forall_mem_singleton.mpr fun q hq =>
      Kind.hasSignature_of_isParameter (hps q.2 (mem_parameterFrame hq).1)
  induction bs generalizing s with
  | nil => exact .pure hs (List.forall_mem_nil _)
  | cons b bs ih =>
      rw [bodies, body, bind_assoc]
      refine (contextOf_proceeds ht hrun hs d).bind fun ctx s₁ hkeeps₁ hctx => ?_
      rw [bind_assoc]
      refine (withFrames_proceeds
        (Q := fun _ s => ∀ m, e.tree.Below b m → s.Looks e.tree m) hkeeps₁.orderly hframe
        (fun _ _ _ h hlooks m hm => (hlooks m hm).later h) fun s₂ hs₂ =>
          (hrun.job (j := .stmt b { ctx with returnType := some output }) hs₂
            ⟨hbs b (by simp), hctx.selfType, hctx.generics⟩ fun _ => id).mono
              fun _ _ _ h => h.2).bind fun _ s₃ hkeeps₃ hlooks => ?_
      rw [pure_bind]
      refine (ih hkeeps₃.orderly fun c hc => hbs c (by simp [hc])).mono fun _ s₄ hkeeps₄ hrest => ?_
      exact List.forall_mem_cons.mpr
        ⟨fun m hm => (hlooks m hm).later hkeeps₄.toAccrues, hrest⟩

theorem function_proceeds {ps bs : List NodeId} (output : Ty → Ty) (hs : s.Orderly e.tree)
    (hps : (e.tree.kind d).parameters? = some ps) (hbs : e.tree.bodies d = bs) :
    Proceeds e (do
      let ty ← run (.signature d)
      bodies e run d ps (output ty) bs) s fun _ s' =>
        ∀ m, e.tree.Below d m → s'.Looks e.tree m := by
  have hd : (e.tree.kind d).hasSignature = true ∧ (e.tree.kind d).hasRule = true ∧
      (e.tree.kind d).isBinding = false ∧ (e.tree.kind d).waits = false := by
    cases hk : e.tree.kind d <;> rw [hk] at hps <;> first | exact ⟨rfl, rfl, rfl, rfl⟩ | cases hps
  obtain ⟨hsignature, hrule, hbinding, hwaits⟩ := hd
  have hps' : ∀ p ∈ ps, (e.tree.kind p).isParameter = true := by
    refine fun p hp => ht.fits d (Kind.isParameter, p) ?_
    cases hk : e.tree.kind d <;>
      simp only [hk, Kind.parameters?, reduceCtorEq, Option.some.injEq] at hps <;> subst hps <;>
      simp [Kind.parts, hp]
  refine (signature_job hrun hs hsignature).bind fun ty s₁ hkeeps₁ hheld => ?_
  refine (bodies_proceeds ht hrun (output ty) hkeeps₁.orderly hps' fun b hb =>
    (Tree.isStmt_of_mem_bodies ht (hbs ▸ hb)).1).mono fun _ s₂ hkeeps₂ hlooks => ?_
  have hself : s₂.Looks e.tree d := by
    refine ⟨fun _ => hkeeps₂.holds d hheld.2, by simp [hwaits], fun i c ts ms hk => ?_,
      by simp [hbinding]⟩
    simp [hk, Kind.waits] at hwaits
  refine looks_below ht hself fun p hp => ?_
  rcases Tree.parts_of_hasRule (Kind.isDeclaration_of_hasSignature hsignature) hbinding hrule p hp
    with hsort | hbody | ⟨hvariant, hbody⟩
  · exact .inl (by rcases hsort with h | h | h <;> simp [h])
  · exact .inr (hlooks p.2 (hbs ▸ hbody))
  · have hfits := ht.fits d p hp
    rw [hvariant] at hfits
    obtain ⟨introducer, effect, b, hk⟩ := Kind.exists_of_isVariant hfits
    refine .inr (looks_below ht ?_ ?_)
    · apply State.Looks.of_plain <;> rw [hk] <;> rfl
    · simp only [hk, Kind.parts, List.mem_singleton, forall_eq]
      exact .inr (hlooks b (hbs ▸ hbody b (by simp [variantBody, hk])))

omit hrun in
theorem memberwise_looks {i : NodeId} (hi : (e.tree.kind i).isMemberwise = true)
    (hheld : s.Holds i) : ∀ m, e.tree.Below i m → s.Looks e.tree m := by
  obtain ⟨introducer, ps, memberwise, hk⟩ := Kind.exists_of_isMemberwise hi
  refine looks_below ht ⟨fun _ => hheld, ?_, ?_, ?_⟩ ?_
  · simp [hk, Kind.waits]
  · simp [hk]
  · simp [hk, Kind.isBinding]
  · simp +contextual [hk, Kind.parts]

theorem members_proceeds {ms : List NodeId} {s₁ : State} (hs : s₁.Orderly e.tree)
    (hself : ∀ s', Accrues s₁ s' → s'.Looks e.tree d)
    (hms : ∀ m ∈ ms, (Kind.isMember, m) ∈ (e.tree.kind d).parts)
    (hparts : ∀ p ∈ (e.tree.kind d).parts, p.2 ∈ ms ∨ p.1 = Kind.isType ∨ p.1 = Kind.isGeneric) :
    Proceeds e (each run (ms.map .decl)) s₁ fun _ s' =>
      ∀ m, e.tree.Below d m → s'.Looks e.tree m := by
  refine (hrun.each hs (fun j hj => ?_) fun j hj => ?_).mono fun _ s' hkeeps hdone => ?_
  · obtain ⟨m, hm, rfl⟩ := List.mem_map.mp hj
    exact ht.fits d _ (hms m hm)
  · obtain ⟨m, -, rfl⟩ := List.mem_map.mp hj
    exact fun _ => id
  · refine looks_below ht (hself s' hkeeps.toAccrues) fun p hp => ?_
    rcases hparts p hp with hm | hsort
    · exact .inr (hdone _ (List.mem_map_of_mem hm))
    · exact .inl (by rcases hsort with h | h <;> simp [h])

omit ht in
theorem conformances_proceeds {ns : List NodeId} (hs : s.Orderly e.tree)
    (hctx : ctx.Rooted e.tree) (hns : ∀ n ∈ ns, (e.tree.kind n).isType = true) :
    Proceeds e (conformances e run ctx ns) s fun _ s' => ∀ n ∈ ns, s'.types.get? n ≠ none := by
  induction ns generalizing s with
  | nil => exact .pure hs (List.forall_mem_nil _)
  | cons n ns ih =>
      rw [conformances]
      refine (typeExpr_job hrun hs (hns n (by simp)) hctx).bind fun a s₁ hkeeps₁ htyped => ?_
      have hrest {s₂ : State} (hkeeps₂ : Keeps e nowhere s₁ s₂) :
          Proceeds e (conformances e run ctx ns) s₂ fun _ s' =>
            ∀ m ∈ n :: ns, s'.types.get? m ≠ none :=
        (ih hkeeps₂.orderly fun m hm => hns m (by simp [hm])).mono fun _ s₃ hkeeps₃ h =>
          List.forall_mem_cons.mpr ⟨(hkeeps₂.trans hkeeps₃).typed n htyped.2, h⟩
      split
      · exact hrest (.refl hkeeps₁.orderly)
      · exact hrest (.refl hkeeps₁.orderly)
      · exact (complain_proceeds hkeeps₁.orderly _ _).bind fun _ _ hkeeps₂ _ => hrest hkeeps₂

theorem product_proceeds {introducer : Site} {x : Name} {gs ms : List NodeId}
    {memberwise : Option NodeId} (hs : s.Orderly e.tree)
    (hk : e.tree.kind d = .product introducer x gs ms memberwise) :
    Proceeds e (each run (ms.map .decl ++ memberwise.toList.map .signature)) s fun _ s' =>
      ∀ m, e.tree.Below d m → s'.Looks e.tree m := by
  have hmemberwise {i : NodeId} (hi : i ∈ memberwise.toList) :
      (e.tree.kind i).isMemberwise = true :=
    ht.fits d (Kind.isMemberwise, i)
      (by simpa [hk, Kind.parts] using .inr (.inr (Option.mem_toList.mp hi)))
  refine (hrun.each hs (fun j hj => ?_) fun j hj => ?_).mono fun _ s' _ hdone => ?_
  · rcases List.mem_append.mp hj with hj | hj <;> obtain ⟨m, hm, rfl⟩ := List.mem_map.mp hj
    · exact ht.fits d (Kind.isMember, m) (by simp [hk, Kind.parts, hm])
    · obtain ⟨i, ps, memberwise, hinit⟩ := Kind.exists_of_isMemberwise (hmemberwise hm)
      simp [Job.Fits, hinit, Kind.hasSignature, Kind.isDeclaration]
  · rcases List.mem_append.mp hj with hj | hj <;> obtain ⟨m, -, rfl⟩ := List.mem_map.mp hj <;>
      exact fun _ => id
  · refine looks_below ht ?_ ?_
    · apply State.Looks.of_plain <;> rw [hk] <;> rfl
    · simp only [hk, Kind.parts, List.forall_mem_append, List.forall_mem_map]
      refine ⟨⟨by simp, fun m hm => .inr (hdone (.decl m) (by simp [hm]))⟩, fun i hi => .inr ?_⟩
      exact memberwise_looks ht (hmemberwise hi)
        (hdone (.signature i) (List.mem_append_right _ (List.mem_map_of_mem hi)))

omit ht in
theorem subject_job (hs : s.Orderly e.tree) : Proceeds e (each run [.subject d]) s fun _ s' =>
    (e.tree.kind d).waits = true → s'.subjects.get? d ≠ none :=
  hrun.single (j := .subject d) hs trivial fun _ => id

theorem extension_proceeds {introducer : Site} {n : NodeId} {ms : List NodeId}
    (hs : s.Orderly e.tree) (hk : e.tree.kind d = .extension introducer n ms) :
    Proceeds e (each run (.subject d :: ms.map .decl)) s fun _ s' =>
      ∀ m, e.tree.Below d m → s'.Looks e.tree m := by
  rw [each_cons]
  refine (subject_job hrun hs).bind fun _ s₁ hkeeps₁ hseen => ?_
  refine members_proceeds ht hrun hkeeps₁.orderly (fun s' haccrues => ?_)
    (by simp +contextual [hk, Kind.parts]) (by simp +contextual [hk, Kind.parts])
  exact ⟨by simp [hk, Kind.hasParameters, Kind.parameters?, Kind.isTypeAlias],
    fun hwaits => haccrues.subjects d (hseen hwaits), by simp [hk], by simp [hk, Kind.isBinding]⟩

theorem conformance_proceeds {introducer : Site} {n : NodeId} {ts ms : List NodeId}
    (hs : s.Orderly e.tree) (hk : e.tree.kind d = .conformance introducer n ts ms) :
    Proceeds e (do
      each run [.subject d]
      let ctx ← contextOf e run d
      conformances e run ctx ts
      each run (ms.map .decl)) s fun _ s' => ∀ m, e.tree.Below d m → s'.Looks e.tree m := by
  refine (subject_job hrun hs).bind fun _ s₁ hkeeps₁ hseen => ?_
  refine (contextOf_proceeds ht hrun hkeeps₁.orderly d).bind fun ctx s₂ hkeeps₂ hctx => ?_
  refine (conformances_proceeds hrun hkeeps₂.orderly hctx fun n hn =>
    ht.fits d (Kind.isType, n) (by simp [hk, Kind.parts, hn])).bind fun _ s₃ hkeeps₃ htraits => ?_
  refine members_proceeds ht hrun hkeeps₃.orderly (fun s' haccrues => ?_)
    (by simp +contextual [hk, Kind.parts]) ?_
  · refine ⟨by simp [hk, Kind.hasParameters, Kind.parameters?, Kind.isTypeAlias],
      fun hwaits => ?_, fun i c ts' ms' hk' n hn => ?_, by simp [hk, Kind.isBinding]⟩
    · exact ((hkeeps₂.trans hkeeps₃).toAccrues.trans haccrues).subjects d (hseen hwaits)
    · obtain ⟨-, -, rfl, -⟩ := Kind.conformance.inj (hk.symm.trans hk')
      exact haccrues.typed n (htraits n hn)
  · simp +contextual [hk, Kind.parts, or_imp, forall_and]

theorem declared_binding_proceeds {p : NodeId} {initializer : Option NodeId}
    (hs : s.Orderly e.tree) (hk : e.tree.kind d = .binding p initializer) :
    Proceeds e (contextOf e run d >>= fun ctx => each run [.binding d ctx false]) s fun _ s' =>
      ∀ m, e.tree.Below d m → s'.Looks e.tree m := by
  refine (contextOf_proceeds ht hrun hs d).bind fun ctx s₁ hkeeps₁ hctx => ?_
  refine (hrun.single (j := .binding d ctx false) hkeeps₁.orderly
    ⟨by simp [hk, Kind.isBinding], hctx⟩ fun _ => id).mono
      fun _ s' _ hchecked => looks_below ht ?_ ?_
  · exact ⟨by simp [hk, Kind.hasParameters, Kind.parameters?, Kind.isTypeAlias],
      by simp [hk, Kind.waits], by simp [hk], fun _ => hchecked⟩
  · simp +contextual [hk, Kind.parts, or_imp]

theorem decl_proceeds (hs : s.Orderly e.tree) (hd : (e.tree.kind d).isMember = true) :
    Proceeds e (decl e run d) s fun _ s' => ∀ m, e.tree.Below d m → s'.Looks e.tree m := by
  have hplain (hparameters : (e.tree.kind d).hasParameters = false)
      (halias : (e.tree.kind d).isTypeAlias = false) (hwaits : (e.tree.kind d).waits = false)
      (hbinding : (e.tree.kind d).isBinding = false) (s' : State) : s'.Looks e.tree d :=
    .of_plain hparameters halias hwaits hbinding
  rw [decl]
  cases hk : e.tree.kind d with
  | space i x ms =>
      exact members_proceeds ht hrun hs (fun s' _ => hplain (by rw [hk]; rfl) (by rw [hk]; rfl)
        (by rw [hk]; rfl) (by rw [hk]; rfl) s') (by simp [hk, Kind.parts])
        (by simp +contextual [hk, Kind.parts])
  | product i x gs ms memberwise => exact product_proceeds ht hrun hs hk
  | extension i n ms => exact extension_proceeds ht hrun hs hk
  | conformance i n ts ms => exact conformance_proceeds ht hrun hs hk
  | trait i x ms =>
      exact members_proceeds ht hrun hs (fun s' _ => hplain (by rw [hk]; rfl) (by rw [hk]; rfl)
        (by rw [hk]; rfl) (by rw [hk]; rfl) s') (by simp [hk, Kind.parts])
        (by simp +contextual [hk, Kind.parts])
  | typeAlias i x k =>
      refine (hrun.single (j := .typeAlias d) hs (by simp [Job.Fits, hk, Kind.isTypeAlias])
        fun _ => id).mono fun _ s' _ hheld => looks_below ht ?_ ?_
      · refine ⟨fun _ => hheld, by simp [hk, Kind.waits], by simp [hk], ?_⟩
        simp [hk, Kind.isBinding]
      · simp [hk, Kind.parts]
  | function i x gs ps o b =>
      exact function_proceeds ht hrun Ty.output hs (by rw [hk]; rfl) (by rw [Tree.bodies, hk])
  | method i x gs ps o vs =>
      exact function_proceeds ht hrun Ty.output hs (by rw [hk]; rfl) (by rw [Tree.bodies, hk])
  | init i ps b memberwise =>
      exact function_proceeds ht hrun (fun _ => .void) hs (by rw [hk]; rfl)
        (by rw [Tree.bodies, hk])
  | subscript i x ps o b =>
      exact function_proceeds ht hrun Ty.output hs (by rw [hk]; rfl) (by rw [Tree.bodies, hk])
  | binding p initializer => exact declared_binding_proceeds ht hrun hs hk
  | associated i x =>
      exact .pure hs (looks_below ht (hplain (by rw [hk]; rfl) (by rw [hk]; rfl)
        (by rw [hk]; rfl) (by rw [hk]; rfl) s) (by simp [hk, Kind.parts]))
  | operator i x l r =>
      exact .pure hs (looks_below ht (hplain (by rw [hk]; rfl) (by rw [hk]; rfl)
        (by rw [hk]; rfl) (by rw [hk]; rfl) s) (by simp [hk, Kind.parts]))
  | _ => simp [hk, Kind.isMember] at hd

end Decls

end LanguageService.Check
