import LanguageService.Proofs.AliasJobs

/-!
Checks that go the same way. What is done in a job is the same whatever runs the jobs that it calls
for, as long as these come to the same results.
-/
namespace LanguageService.Check

/-- What `m` comes to from `s`, `m'` comes to from `s'`, and the states they end in are alike. -/
def TracksFrom {α : Type} (R : State → State → Prop) (s s' : State) (m m' : CheckM α) : Prop :=
  ∀ a s₁, m s = some (a, s₁) → ∃ s₁', m' s' = some (a, s₁') ∧ R s₁ s₁'

def Tracks {α : Type} (R : State → State → Prop) (m m' : CheckM α) : Prop :=
  ∀ s s', R s s' → TracksFrom R s s' m m'

theorem TracksFrom.bind {α β : Type} {R : State → State → Prop} {s s' : State}
    {m m' : CheckM α} {f f' : α → CheckM β} (h : TracksFrom R s s' m m')
    (hf : ∀ a s₁ s₁', R s₁ s₁' → m s = some (a, s₁) → TracksFrom R s₁ s₁' (f a) (f' a)) :
    TracksFrom R s s' (m >>= f) (m' >>= f') := by
  intro b s₂ hb
  obtain ⟨⟨a, s₁⟩, ha, hfa⟩ := Option.bind_eq_some_iff.mp hb
  obtain ⟨s₁', ha', hs₁⟩ := h a s₁ ha
  obtain ⟨s₂', hfa', hs₂⟩ := hf a s₁ s₁' hs₁ ha b s₂ hfa
  exact ⟨s₂', Option.bind_eq_some_iff.mpr ⟨(a, s₁'), ha', hfa'⟩, hs₂⟩

namespace Tracks

variable {α β : Type} {R : State → State → Prop} {m m' : CheckM α} {f f' : α → CheckM β}

theorem pure (a : α) : Tracks R (Pure.pure a) (Pure.pure a) := by
  intro s s' hs b s₁ hb
  cases hb
  exact ⟨s', rfl, hs⟩

theorem bind (h : Tracks R m m') (hf : ∀ a, Tracks R (f a) (f' a)) :
    Tracks R (m >>= f) (m' >>= f') :=
  fun s s' hs => (h s s' hs).bind fun a s₁ s₁' hs₁ _ => hf a s₁ s₁' hs₁

theorem modify {g g' : State → State} (h : ∀ s s', R s s' → R (g s) (g' s')) :
    Tracks R (modify g) (modify g') := by
  intro s s' hs b s₁ hb
  cases hb
  exact ⟨g' s', rfl, h s s' hs⟩

theorem get {f f' : State → CheckM β}
    (h : ∀ s s', R s s' → TracksFrom R s s' (f s) (f' s')) :
    Tracks R (MonadState.get >>= f) (MonadState.get >>= f') := h

theorem mapM {f f' : α → CheckM β} {as : List α} (hf : ∀ a ∈ as, Tracks R (f a) (f' a)) :
    Tracks R (as.mapM f) (as.mapM f') := by
  induction as with
  | nil => exact .pure []
  | cons a as ih =>
      rw [List.forall_mem_cons] at hf
      rw [List.mapM_cons, List.mapM_cons]
      exact .bind hf.1 fun _ => .bind (ih hf.2) fun _ => .pure _

theorem foldlM {f f' : β → α → CheckM β} (hf : ∀ b a, Tracks R (f b a) (f' b a)) (as : List α)
    (b : β) : Tracks R (as.foldlM f b) (as.foldlM f' b) := by
  induction as generalizing b with
  | nil => exact .pure b
  | cons a as ih => exact .bind (hf b a) ih

end Tracks

structure Stable (e : Env) (R : State → State → Prop) : Prop where
  refer : ∀ n r, Tracks R (refer n r) (refer n r)
  complain : ∀ site c, Tracks R (complain e site c) (complain e site c)
  setType : ∀ n a, (e.tree.kind n).isDeclaration = false → Tracks R (setType n a) (setType n a)

/-- A declaration whose signature does not depend on where it is asked for: no variable of a
body. -/
structure Env.IsOuter (e : Env) (d : NodeId) : Prop where
  signature : (e.tree.kind d).hasSignature = true
  single : (e.tree.kind d).isBinding = false
  bound : (e.tree.kind d).isVar = true → e.decls.bindings.get? d ≠ none

theorem Env.IsOuter.of_isParameter {e : Env} {p : NodeId}
    (hp : (e.tree.kind p).isParameter = true) : e.IsOuter p := by
  refine ⟨Kind.hasSignature_of_isParameter hp, ?_, ?_⟩ <;>
    cases hk : e.tree.kind p <;> simp_all [Kind.isParameter, Kind.isVar, Kind.isBinding]

theorem Env.IsOuter.of_parameters? {e : Env} {d : NodeId} {ps : List NodeId}
    (hps : (e.tree.kind d).parameters? = some ps) : e.IsOuter d := by
  have hkind {k : Kind} (hk : k.parameters? = some ps) :
      k.hasSignature = true ∧ k.isBinding = false ∧ k.isVar = false := by
    cases k <;> first | exact ⟨rfl, rfl, rfl⟩ | cases hk
  obtain ⟨hsignature, hsingle, hvar⟩ := hkind hps
  exact ⟨hsignature, hsingle, fun h => by rw [hvar] at h; cases h⟩

structure Env.Outward (e : Env) : Prop where
  named : ∀ s x, ∀ d ∈ e.decls.named s x, (e.tree.kind d).hasSignature = true → e.IsOuter d
  initializers : ∀ ty, ∀ i ∈ e.decls.initializersOf ty, e.IsOuter i
  subscripts : ∀ o, ∀ i ∈ e.decls.subscriptsOf o, e.IsOuter i
  stored : ∀ ty, ∀ v ∈ e.decls.storedOf ty, e.IsOuter v

def Job.IsTyping (e : Env) : Job → Prop
  | signature d => e.IsOuter d
  | typeAlias d => (e.tree.kind d).isTypeAlias = true
  | subject _ => True
  | typeExpr n _ => (e.tree.kind n).isType = true
  | _ => False

variable {e : Env} {run run' : Run} {R : State → State → Prop}

section Types

theorem contextOf_tracks (hsubject : ∀ ext, Tracks R (run (.subject ext)) (run' (.subject ext)))
    (d : NodeId) : Tracks R (contextOf e run d) (contextOf e run' d) := by
  refine .foldlM (fun ctx q => ?_) _ _
  have hself : Tracks R (extendContext.subjectSelf run ctx q)
      (extendContext.subjectSelf run' ctx q) := by
    rw [extendContext.subjectSelf, extendContext.subjectSelf]
    split
    · exact .pure _
    · exact (hsubject q).bind fun _ => .pure _
  rw [extendContext, extendContext]
  split
  · exact .pure _
  · exact .pure _
  · exact .pure _
  · exact .pure _
  · exact hself
  · exact hself
  · exact .pure _

variable (ht : e.tree.WellFormed) (hR : Stable e R)
  (hrun : ∀ j, j.IsTyping e → Tracks R (run j) (run' j))

include hrun

theorem typePart_tracks (ht : e.tree.WellFormed) {n q : NodeId} (ctx : Context)
    (hn : (Kind.isType, n) ∈ (e.tree.kind q).parts) :
    Tracks R (run (.typeExpr n ctx)) (run' (.typeExpr n ctx)) :=
  hrun (.typeExpr n ctx) (ht.fits q _ hn)

theorem contextIn_tracks (d : NodeId) : Tracks R (contextOf e run d) (contextOf e run' d) :=
  contextOf_tracks (fun ext => hrun (.subject ext) trivial) d

theorem typeIn_tracks (ht : e.tree.WellFormed) (d : NodeId) {n q : NodeId}
    (hn : (Kind.isType, n) ∈ (e.tree.kind q).parts) :
    Tracks R (contextOf e run d >>= fun ctx => run (.typeExpr n ctx))
      (contextOf e run' d >>= fun ctx => run' (.typeExpr n ctx)) :=
  (contextIn_tracks hrun d).bind fun ctx => typePart_tracks hrun ht ctx hn

include hR in
theorem typeName_tracks (n : NodeId) (x : Name) (ctx : Context) :
    Tracks R (typeName e run n x ctx) (typeName e run' n x ctx) := by
  have hrefer {a : Ty} (r : Reference) :
      Tracks R (refer n r >>= fun _ => pure a) (refer n r >>= fun _ => pure a) :=
    (hR.refer n r).bind fun _ => .pure a
  have hcomplain (c : Complaint) : Tracks R (complain e x.site c >>= fun _ => pure Ty.error)
      (complain e x.site c >>= fun _ => pure Ty.error) :=
    (hR.complain _ c).bind fun _ => .pure _
  rw [typeName, typeName]
  split
  · split
    · exact .pure _
    · exact hcomplain _
  · dsimp only
    split
    · exact hrefer _
    · split
      · exact hrefer _
      · split
        · exact hcomplain _
        · next d _ =>
            rw [typeDenoted, typeDenoted]
            cases hk : e.tree.kind d with
            | product i y gs ms memberwise => exact (Tracks.pure _).bind fun _ => hrefer _
            | «trait» i y ms => exact (Tracks.pure _).bind fun _ => hrefer _
            | associated i y => exact (Tracks.pure _).bind fun _ => hrefer _
            | generic y => exact (Tracks.pure _).bind fun _ => hrefer _
            | typeAlias i y k =>
                exact (hrun (.typeAlias d) (by simp [Job.IsTyping, hk, Kind.isTypeAlias])).bind
                  fun _ => hrefer _
            | _ => exact hcomplain _

include hR ht in
theorem typeExpr_tracks {n : NodeId} (ctx : Context) (hn : (e.tree.kind n).isType = true) :
    Tracks R (typeExpr e run n ctx) (typeExpr e run' n ctx) := by
  have hset {m m' : CheckM Ty} (hm : Tracks R m m') :
      Tracks R (m >>= fun a => setType n a >>= fun _ => pure a)
        (m' >>= fun a => setType n a >>= fun _ => pure a) :=
    hm.bind fun a => (hR.setType n a (by cases hk : e.tree.kind n <;>
      simp_all [Kind.isType, Kind.isDeclaration])).bind fun _ => .pure a
  rw [typeExpr, typeExpr]
  split
  · exact hset (typeName_tracks hR hrun n _ ctx)
  · next es hk =>
      rw [← bind_assoc, ← bind_assoc]
      refine hset (.bind (.mapM fun c hc => ?_) fun _ => .pure _)
      exact typePart_tracks hrun ht (q := n) ctx (by simp [hk, Kind.parts, hc])
  · exact hset (.pure _)

theorem parameters_tracks (ht : e.tree.WellFormed) {d : NodeId} {ps : List NodeId}
    (hps : ∀ p ∈ ps, (Kind.isParameter, p) ∈ (e.tree.kind d).parts) :
    Tracks R (ps.mapM fun p => run (.signature p)) (ps.mapM fun p => run' (.signature p)) := by
  exact .mapM fun p hp => hrun (.signature p) (.of_isParameter (ht.fits d _ (hps p hp)))

theorem functionType_tracks (ht : e.tree.WellFormed) {d : NodeId} {ps : List NodeId}
    {output : Option NodeId} (hps : ∀ p ∈ ps, (Kind.isParameter, p) ∈ (e.tree.kind d).parts)
    (houtput : ∀ o ∈ output, (Kind.isType, o) ∈ (e.tree.kind d).parts) :
    Tracks R (functionType e run d ps output) (functionType e run' d ps output) := by
  rw [functionType, functionType]
  refine (parameters_tracks hrun ht hps).bind fun inputs => ?_
  cases output with
  | none => exact .pure _
  | some o =>
      exact (contextIn_tracks hrun d).bind fun ctx =>
        (typePart_tracks hrun ht ctx (houtput o rfl)).bind fun _ => .pure _

theorem declaredType_tracks (ht : e.tree.WellFormed) (hout : e.Outward) {d : NodeId}
    (hvar : (e.tree.kind d).isVar = true → Tracks R (varType e run d) (varType e run' d)) :
    Tracks R (declaredType e run d) (declaredType e run' d) := by
  rw [declaredType, declaredType]
  split
  · next hk => exact typeIn_tracks hrun ht d (q := d) (by simp [hk, Kind.parts])
  · split
    · next v hv =>
        obtain ⟨owner, hv⟩ := exists_storedOf hv
        exact hrun (.signature v) (hout.stored owner v hv)
    · exact .pure _
  · next hk =>
      exact functionType_tracks hrun ht (by simp +contextual [hk, Kind.parts])
        (by simp +contextual [hk, Kind.parts])
  · next hk =>
      exact functionType_tracks hrun ht (by simp +contextual [hk, Kind.parts])
        (by simp +contextual [hk, Kind.parts])
  · next hk =>
      exact (parameters_tracks hrun ht (d := d) (by simp +contextual [hk, Kind.parts])).bind
        fun _ => (contextIn_tracks hrun d).bind fun _ => .pure _
  · next hk =>
      exact functionType_tracks hrun ht (by simp +contextual [hk, Kind.parts])
        (by simp +contextual [hk, Kind.parts])
  · next hk => exact hvar (by rw [hk]; rfl)
  · exact .pure _

end Types

structure Reads (R : State → State → Prop) (run run' : Run) : Prop where
  frames : ∀ s s', R s s' → s.frames = s'.frames
  locals : ∀ s s', R s s' → ∀ x d, lookupFrames x s.frames = some d →
    TracksFrom R s s' (run (.signature d)) (run' (.signature d))

section Exprs

variable (hR : Stable e R) (hds : e.decls.Sane e.tree) (hout : e.Outward)
  (hrun : ∀ j, j.IsTyping e → Tracks R (run j) (run' j)) {n : NodeId} {ctx : Context}

theorem expect_tracks (hR : Stable e R) (expected found : Ty) (n : NodeId) :
    Tracks R (expect e expected found n) (expect e expected found n) := by
  rw [expect]
  split
  · exact .pure ()
  · exact hR.complain _ _

theorem complain_pure_tracks (hR : Stable e R) (site : Site) (c : Complaint) (a : Ty) :
    Tracks R (complain e site c >>= fun _ => pure a) (complain e site c >>= fun _ => pure a) :=
  (hR.complain site c).bind fun _ => .pure a

theorem arguments_tracks (hR : Stable e R) (n : NodeId) (args : List NodeId)
    (inputs found : List Ty) :
    Tracks R (arguments e n args inputs found) (arguments e n args inputs found) := by
  have heach (xs : List (NodeId × Ty × Ty)) : Tracks R (checkEach e xs) (checkEach e xs) := by
    induction xs with
    | nil => exact .pure ()
    | cons x xs ih => exact .bind (expect_tracks hR _ _ _) fun _ => ih
  rw [arguments]
  split
  · exact hR.complain _ _
  · exact heach _

include hrun

theorem valueType_tracks {d : NodeId} (hd : (e.tree.kind d).hasSignature = true → e.IsOuter d)
    (hdecl : (e.tree.kind d).isDeclaration = true) :
    Tracks R (valueType e run d) (valueType e run' d) := by
  rw [valueType, valueType]
  split
  · exact .pure _
  · exact .pure _
  · next hk =>
      exact (hrun (.typeAlias d) (by simp [Job.IsTyping, hk, Kind.isTypeAlias])).bind
        fun _ => .pure _
  · exact .pure _
  · exact .pure _
  · exact .pure _
  · next halias _ _ _ =>
      refine hrun (.signature d) (hd (Kind.hasSignature_of_isDeclaration hdecl ?_))
      cases hk : e.tree.kind d with
      | typeAlias i x k => exact (halias i x k hk).elim
      | _ => rfl

theorem member_tracks (hR : Stable e R) (hds : e.decls.Sane e.tree) (hout : e.Outward)
    {n d : NodeId} {s : Scope} {x : String} (r : Reference) (hd : d ∈ e.decls.named s x) :
    Tracks R (refer n r >>= fun _ => valueType e run d)
      (refer n r >>= fun _ => valueType e run' d) :=
  (hR.refer n r).bind fun _ => valueType_tracks hrun (hout.named s x d hd)
    (Kind.isDeclaration_of_declared (hds.named hd).1)

include hR hds hout

theorem unqualified_tracks (hreads : Reads R run run') (x : Name) :
    Tracks R (unqualified e run n x ctx) (unqualified e run' n x ctx) := by
  rw [unqualified, unqualified]
  split
  · split
    · exact .pure _
    · exact complain_pure_tracks hR _ _ _
  · refine .get fun s s' hs => ?_
    rw [← hreads.frames s s' hs]
    split
    · next d hd =>
        refine .bind (hR.refer n _ s s' hs) fun _ s₁ s₁' hs₁ hrefer => ?_
        cases hrefer
        exact hreads.locals _ s₁' hs₁ x.text d hd
    · revert s s' hs
      split
      · next d hd =>
          obtain ⟨scope, hscope⟩ := Declarations.exists_named_of_lookup hd
          exact fun s s' hs _ => member_tracks hrun hR hds hout _ hscope s s' hs
      · split
        · exact fun s s' hs _ => ((hR.refer _ _).bind fun _ => .pure _) s s' hs
        · split
          · exact fun s s' hs _ => ((hR.refer _ _).bind fun _ => .pure _) s s' hs
          · exact fun s s' hs _ => complain_pure_tracks hR _ _ _ s s' hs

theorem qualified_tracks (domain : Ty) (x : Name) :
    Tracks R (qualified e run n domain x) (qualified e run' n domain x) := by
  have hnone : Tracks R (noMember e domain x) (noMember e domain x) :=
    complain_pure_tracks hR _ _ _
  unfold qualified
  split
  · exact .pure _
  · split
    · next hm => exact member_tracks hrun hR hds hout _ (List.mem_of_mem_head? hm)
    · exact hnone
  · split
    · split
      · next hm => exact member_tracks hrun hR hds hout _ (List.mem_of_mem_head? hm)
      · exact hnone
    · split
      · exact .pure _
      · exact hnone

omit hds in
theorem construction_tracks {callee d : NodeId} {args : List NodeId} {found : List Ty} :
    Tracks R (construction e run n callee args d found)
      (construction e run' n callee args d found) := by
  rw [construction, construction]
  split
  · exact complain_pure_tracks hR _ _ _
  · next i hi =>
      refine (hR.refer _ _).bind fun _ => (hrun (.signature i)
        (hout.initializers d i (pick_mem hi))).bind fun ty => ?_
      dsimp only
      split
      · exact (arguments_tracks hR _ _ _ _).bind fun _ => .pure _
      · exact .pure _

section Operands

variable (hexpr : ∀ c ∈ e.tree.children n, (e.tree.kind c).isExpr = true →
  Tracks R (run (.expr c ctx)) (run' (.expr c ctx))) (ht : e.tree.WellFormed)

include hexpr ht

omit hR hds hout hrun in
theorem operand_tracks {c : NodeId} (hc : (Kind.isExpr, c) ∈ (e.tree.kind n).parts) :
    Tracks R (run (.expr c ctx)) (run' (.expr c ctx)) :=
  hexpr c (Tree.child_of_part hc) (ht.fits n _ hc)

omit hR hds hout hrun in
theorem operands_tracks {cs : List NodeId}
    (hcs : ∀ c ∈ cs, (Kind.isExpr, c) ∈ (e.tree.kind n).parts) :
    Tracks R (cs.mapM fun c => run (.expr c ctx)) (cs.mapM fun c => run' (.expr c ctx)) :=
  .mapM fun c hc => operand_tracks hexpr ht (hcs c hc)

omit hds in
theorem call_tracks {callee : NodeId} {args : List NodeId}
    (hcallee : (Kind.isExpr, callee) ∈ (e.tree.kind n).parts)
    (hargs : ∀ a ∈ args, (Kind.isExpr, a) ∈ (e.tree.kind n).parts) :
    Tracks R (call e run n callee args ctx) (call e run' n callee args ctx) := by
  rw [call, call]
  refine (operand_tracks hexpr ht hcallee).bind fun ty =>
    (operands_tracks hexpr ht hargs).bind fun found => ?_
  split
  · exact construction_tracks hR hout hrun
  · exact .pure _
  · exact complain_pure_tracks hR _ _ _
  · exact (arguments_tracks hR _ _ _ _).bind fun _ => .pure _
  · exact .pure _
  · exact complain_pure_tracks hR _ _ _

omit hds in
theorem subscript_tracks {callee : NodeId} {args : List NodeId}
    (hcallee : (Kind.isExpr, callee) ∈ (e.tree.kind n).parts)
    (hargs : ∀ a ∈ args, (Kind.isExpr, a) ∈ (e.tree.kind n).parts) :
    Tracks R (subscript e run n callee args ctx) (subscript e run' n callee args ctx) := by
  rw [subscript, subscript]
  refine (operand_tracks hexpr ht hcallee).bind fun ty =>
    (operands_tracks hexpr ht hargs).bind fun found => ?_
  split
  · exact .pure _
  · exact .pure _
  · dsimp only
    split
    · exact complain_pure_tracks hR _ _ _
    · next i hi =>
        have hmem := pick_mem hi
        have houter : e.IsOuter i := by
          cases howner : ownerOf e.tree ty with
          | none => simp [howner] at hmem
          | some o => exact hout.subscripts o i (by simpa [howner] using hmem)
        refine (hrun (.signature i) houter).bind fun _ => ?_
        split
        · exact (arguments_tracks hR _ _ _ _).bind fun _ => .pure _
        · exact .pure _

variable (hletters : e.tree.Lettered) {l r : NodeId} {op : Name}
  (hn : e.tree.kind n = .binary l op r)

include hletters hn

omit hexpr ht in
theorem memberOperator_tracks (lhs rhs : Ty) :
    Tracks R (memberOperator e run n op lhs rhs r) (memberOperator e run' n op lhs rhs r) := by
  unfold memberOperator
  split
  · next d hd =>
      obtain ⟨o, -, hmember⟩ := Option.bind_eq_some_iff.mp hd
      have hnamed := List.mem_of_mem_head? hmember
      have hsignature := hletters.hasSignature_of_operator hn (hds.named hnamed).1
      refine (hR.refer _ _).bind fun _ =>
        (hrun (.signature d) (hout.named _ _ d hnamed hsignature)).bind fun _ => ?_
      split
      · exact (expect_tracks hR _ _ _).bind fun _ => .pure _
      · exact complain_pure_tracks hR _ _ _
      · exact .pure _
  · split
    · exact .pure _
    · exact complain_pure_tracks hR _ _ _

theorem binary_tracks : Tracks R (binary e run n l op r ctx) (binary e run' n l op r ctx) := by
  rw [binary, binary]
  refine (operand_tracks hexpr ht (by simp [hn, Kind.parts])).bind fun lhs =>
    (operand_tracks hexpr ht (by simp [hn, Kind.parts])).bind fun rhs => ?_
  split
  · exact .pure _
  · exact .pure _
  · split
    · exact (hR.refer _ _).bind fun _ => .pure _
    · exact memberOperator_tracks hR hds hout hrun hletters hn _ _

end Operands

theorem expr_tracks (ht : e.tree.WellFormed) (hletters : e.tree.Lettered)
    (hreads : Reads R run run')
    (hexpr : ∀ c ∈ e.tree.children n, (e.tree.kind c).isExpr = true →
      Tracks R (run (.expr c ctx)) (run' (.expr c ctx)))
    (hn : (e.tree.kind n).isExpr = true) :
    Tracks R (expr e run n ctx) (expr e run' n ctx) := by
  have hset {m m' : CheckM Ty} (hm : Tracks R m m') :
      Tracks R (m >>= fun a => setType n a >>= fun _ => pure a)
        (m' >>= fun a => setType n a >>= fun _ => pure a) :=
    hm.bind fun a => (hR.setType n a (by cases hk : e.tree.kind n <;>
      simp_all [Kind.isExpr, Kind.isDeclaration])).bind fun _ => .pure a
  have hargs {callee : NodeId} {args : List (Option Name × NodeId)}
      (hparts : (e.tree.kind n).parts =
        (Kind.isExpr, callee) :: args.map fun a => (Kind.isExpr, a.2)) :
      ∀ a ∈ args.map (·.2), (Kind.isExpr, a) ∈ (e.tree.kind n).parts := by
    intro a ha
    obtain ⟨b, hb, rfl⟩ := List.mem_map.mp ha
    rw [hparts]
    exact List.mem_cons_of_mem _ (List.mem_map.mpr ⟨b, hb, rfl⟩)
  rw [expr, expr]
  split
  · exact hset (.pure _)
  · exact hset (.pure _)
  · exact hset (.pure _)
  · exact hset (.pure _)
  · next hk =>
      rw [← bind_assoc, ← bind_assoc]
      exact hset (.bind (operand_tracks hexpr ht (by simp [hk, Kind.parts])) fun _ =>
        qualified_tracks hR hds hout hrun _ _)
  · exact hset (unqualified_tracks hR hds hout hrun hreads _)
  · next hk =>
      exact hset (call_tracks hR hout hrun hexpr ht (by simp [hk, Kind.parts])
        (hargs (by rw [hk, Kind.parts])))
  · next hk =>
      exact hset (subscript_tracks hR hout hrun hexpr ht (by simp [hk, Kind.parts])
        (hargs (by rw [hk, Kind.parts])))
  · next hk => exact hset (binary_tracks hR hds hout hrun hexpr ht hletters hk)
  · next hk =>
      rw [← bind_assoc, ← bind_assoc]
      exact hset (.bind (operands_tracks hexpr ht (by simp [hk, Kind.parts])) fun _ => .pure _)
  · exact hset (.pure _)

end Exprs

section Patterns

variable (hR : Stable e R) {p : NodeId} {inBody : Bool}

include hR in
theorem parts_tracks (p : NodeId) (a : Ty) (k : Nat) :
    Tracks R (parts e p a k) (parts e p a k) := by
  have hrefuse (unknown : List Ty) :
      Tracks R (parts.refuse e p a k unknown) (parts.refuse e p a k unknown) :=
    (hR.complain _ _).bind fun _ => .pure _
  unfold parts
  split
  · exact .pure _
  · split
    · exact .pure _
    · exact hrefuse _
  · exact hrefuse _

include hR in
theorem pattern_tracks (a : Ty)
    (hvar : ∀ v a, (Kind.isVar, v) ∈ (e.tree.kind p).parts →
      Tracks R (bindVar e v a inBody) (bindVar e v a inBody))
    (hpattern : ∀ q a, (Kind.isPattern, q) ∈ (e.tree.kind p).parts →
      Tracks R (run (.pattern q a inBody)) (run' (.pattern q a inBody))) :
    Tracks R (pattern e run p a inBody) (pattern e run' p a inBody) := by
  have heach (qs : List (NodeId × Ty))
      (hqs : ∀ q ∈ qs, (Kind.isPattern, q.1) ∈ (e.tree.kind p).parts) :
      Tracks R (patternParts run inBody qs) (patternParts run' inBody qs) := by
    induction qs with
    | nil => exact .pure ()
    | cons q qs ih =>
        rw [List.forall_mem_cons] at hqs
        exact .bind (hpattern _ _ hqs.1) fun _ => ih hqs.2
  rw [pattern, pattern]
  split
  · next hk => exact hvar _ _ (by simp [hk, Kind.parts])
  · next es hk =>
      refine (parts_tracks hR _ _ _).bind fun as => heach _ fun q hq => ?_
      simp [hk, Kind.parts, (List.of_mem_zip hq).1]
  · next hk => exact (hpattern _ _ (by simp [hk, Kind.parts])).bind fun _ => .pure _
  · exact .pure _

end Patterns

end LanguageService.Check
