import LanguageService.Proofs.CheckedExpr
import LanguageService.Proofs.LexicalTypes

namespace LanguageService

namespace Tree

theorem isVar_or_isParameter_of_local {t : Tree} (ht : t.WellFormed) {n v : NodeId}
    {vs : List NodeId} (hvs : vs ∈ t.locals n) (hv : v ∈ vs) :
    (t.kind v).isVar = true ∨ (t.kind v).isParameter = true := by
  obtain ⟨⟨c, p⟩, -, hlocals⟩ := List.mem_filterMap.mp hvs
  rw [localsAt] at hlocals
  split at hlocals
  · obtain rfl := Option.some.inj hlocals
    obtain ⟨m, -, hv⟩ := List.mem_flatMap.mp (List.mem_reverse.mp hv)
    rw [boundBy] at hv
    split at hv
    · split at hv
      · exact .inl (isVar_of_mem_patternVarsAt ht hv)
      · simp at hv
    · simp at hv
  · obtain ⟨ps, hps, rfl⟩ := Option.map_eq_some_iff.mp hlocals
    refine .inr (ht.fits p (Kind.isParameter, v) ?_)
    have hv := List.mem_reverse.mp hv
    cases hk : t.kind p <;>
      simp only [hk, Kind.parameters?, reduceCtorEq, Option.some.injEq] at hps <;> subst hps <;>
      simp [Kind.parts, hv]

theorem scope_of_expr {t : Tree} (ht : t.WellFormed) {n c : NodeId}
    (hn : (t.kind n).parameters? = none) (hbrace : (t.kind n).isBrace = false)
    (hc : c ∈ t.children n) (hexpr : (t.kind c).isExpr = true) :
    t.home? c = t.home? n ∧ t.frames c = t.frames n := by
  have hparameters : (t.kind c).hasParameters = false := by
    rw [Kind.hasParameters, Kind.parameters?_of_isExpr hexpr]
    rfl
  refine ⟨home?_of_child ht hc hparameters (Kind.isBinding_of_isExpr hexpr), ?_⟩
  rw [frames, locals_of_child ht hc, localsAt_of_isBrace hbrace, hn]
  rfl

end Tree

namespace Check

variable {e : Env} {run : Run} {w : Nat} {s : State}

theorem State.Denotes.of_other {n : NodeId} {a : Ty} (hn : ∀ x, e.tree.kind n ≠ .name none x) :
    s.Denotes e n a :=
  fun x hx => absurd hx.1 (hn x)

structure Settles (e : Env) (n : NodeId) (a : Ty) (s s' : State) : Prop extends Serves e s s' where
  parts : ∀ c ∈ e.tree.children n, s'.Covers e.tree c
  found : ∀ x, e.tree.IsName n x → e.tree.meaning n x.text ≠ none → s'.references.get? n ≠ none
  missed : ∀ x, e.tree.IsName n x → e.tree.meaning n x.text = none →
    s'.diagnostics.contains (.undefined x) = true
  denotes : s'.Denotes e n a

theorem Settles.of_other {n : NodeId} {a : Ty} {s' : State}
    (hn : ∀ x, e.tree.kind n ≠ .name none x) (hserves : Serves e s s')
    (hparts : ∀ c ∈ e.tree.children n, s'.Covers e.tree c) : Settles e n a s s' :=
  ⟨hserves, hparts, fun x hx => absurd hx.1 (hn x), fun x hx => absurd hx.1 (hn x),
    .of_other hn⟩

section Names

variable {n : NodeId} {x : Name} {ctx : Context} (hk : e.tree.kind n = .name none x)

include hk

theorem Settles.of_self {a : Ty} {s' : State} (hself : x.text = "self") (hserves : Serves e s s') :
    Settles e n a s s' := by
  have hnot (y : Name) : ¬ e.tree.IsName n y := by
    intro hy
    obtain rfl := hy.eq hk
    exact hy.2 hself
  refine ⟨hserves, ?_, fun y hy => absurd hy (hnot y), fun y hy => absurd hy (hnot y),
    fun y hy => absurd hy (hnot y)⟩
  simp [Tree.children, hk, Kind.children]

theorem refer_settles (hs : s.Lexical e) {r : Reference} {m : CheckM Ty}
    (hr : e.tree.meaning n x.text = some r)
    (hm : ∀ s₁, Serves e s s₁ → Succeeds m s₁ fun a s' =>
      Serves e s₁ s' ∧ ∀ b, a = .metatype b → s'.ValueNamed e n x.text b) :
    Succeeds (refer n r >>= fun _ => m) s fun a s' => Settles e n a s s' := by
  refine (serves_refer hs fun y hy => by rw [hy.eq hk]; exact .inl hr).bind ?_
  rintro - s₁ ⟨hserves, href⟩
  refine (hm s₁ hserves).mono ?_
  rintro a s' ⟨hserves', hvalue⟩
  refine ⟨hserves.trans hserves', ?_, fun _ _ _ => hserves'.referred n (by simp [href]), ?_, ?_⟩
  · simp [Tree.children, hk, Kind.children]
  · intro y hy hnone
    rw [hy.eq hk, hr] at hnone
    cases hnone
  · intro y hy
    rw [hy.eq hk]
    exact hvalue

theorem undefined_settles (hs : s.Lexical e) (hreached : e.tree.Reached n)
    (hm : e.tree.meaning n x.text = none) :
    Succeeds (complain e x.site (.undefinedName x.text) >>= fun _ => pure Ty.error) s
      fun a s' => Settles e n a s s' := by
  refine .bind (.modify (Q := fun _ s' => Settles e n .error s s') ?_) fun _ _ h => .pure h
  have hserves : Serves e s { s with diagnostics := s.diagnostics.insert (.undefined x) } :=
    ⟨⟨.of_eq (absurd · (not_clean_insert s rfl)) rfl rfl rfl rfl, hs.undefined hreached hk hm⟩, rfl⟩
  refine ⟨hserves, ?_, fun y hy hsome => ?_, fun y hy _ => ?_, by simp [State.Denotes]⟩
  · simp [Tree.children, hk, Kind.children]
  · rw [hy.eq hk] at hsome
    exact absurd hm hsome
  · rw [hy.eq hk]
    exact DiagnosticSet.contains_insert_self _

variable (he : e.Scoped) (hrun : Solves e run w) (hs : s.Lexical e)

include he hrun hs

theorem local_settles {d : NodeId} (hd : (e.tree.locals n).findSome?
      (fun vs => vs.find? (e.tree.isNamed x.text)) = some d)
    (hw : (Job.expr n ctx).weight e.tree s < w + 1) :
    Succeeds (refer n (.direct d) >>= fun _ => run (.signature d)) s
      fun a s' => Settles e n a s s' := by
  have hm : e.tree.meaning n x.text = some (.direct d) := by rw [Tree.meaning, hd]
  have hdecl := Tree.isDeclaration_of_meaning he.tree (.inl hm)
  refine refer_settles hk hs hm fun s₁ hserves => ?_
  refine (hrun.signature hserves.lexical hdecl (hserves.weight_lt
    (Job.affords hw (by simp only [Job.rank]; omega)))).mono ?_
  rintro a s' ⟨hserves', htype⟩
  refine ⟨hserves', ?_⟩
  rintro b rfl
  refine .declared (.inl hm) hdecl ?_
  obtain ⟨vs, hvs, hfind⟩ := List.exists_of_findSome?_eq_some hd
  rcases Tree.isVar_or_isParameter_of_local he.tree hvs (List.mem_of_find?_eq_some hfind) with
    hvar | hparameter
  · cases hkind : e.tree.kind d <;> simp [hkind, Kind.isVar] at hvar
    simpa [Program.HasValue, State.program, hkind] using htype
  · cases hkind : e.tree.kind d <;> simp [hkind, Kind.isParameter] at hparameter
    simpa [Program.HasValue, State.program, hkind] using htype

theorem declared_settles {d : NodeId} (hd : (e.decls.lookup e.tree ctx.scope x.text).head? = some d)
    (hm : e.tree.meaning n x.text = some (if isMember e d then .member d else .direct d))
    (hw : (Job.expr n ctx).weight e.tree s < w + 1) :
    Succeeds (refer n (if isMember e d then .member d else .direct d) >>= fun _ =>
      valueType e run d) s fun a s' => Settles e n a s s' := by
  have hdecl := Kind.isDeclaration_of_declared (he.sane.lookup hd).1
  have hmeans : e.tree.meaning n x.text = some (.direct d) ∨
      e.tree.meaning n x.text = some (.member d) := by
    rw [hm]
    split
    · exact .inr rfl
    · exact .inl rfl
  refine refer_settles hk hs hm fun s₁ hserves => ?_
  have hw₁ := hserves.weight_lt hw
  refine (valueType_serves hrun hserves.lexical hdecl
    (Job.affords hw₁ (by simp only [Job.rank]; omega))
    (Job.affords hw₁ (by simp only [Job.rank]; omega))).mono ?_
  rintro a s' ⟨hserves', hvalue⟩
  refine ⟨hserves', ?_⟩
  rintro b rfl
  rcases hvalue b rfl with ⟨rfl, hunclean⟩ | hvalue
  · exact .unknown hunclean
  · exact .declared hmeans hdecl hvalue

theorem unqualified_settles (hstands : Job.Stands e s (.expr n ctx))
    (hw : (Job.expr n ctx).weight e.tree s < w + 1) :
    Succeeds (unqualified e run n x ctx) s fun a s' => Settles e n a s s' := by
  obtain ⟨-, hreached, hhome, hframes⟩ := hstands
  have hbuiltin (hm : e.tree.meaning n x.text = some (.builtin x.text)) {a : Ty}
      (ha : ∀ b, a = .metatype b → (Builtin.ofWord x.text).map .builtin = some b) :
      Succeeds (refer n (.builtin x.text) >>= fun _ => pure a) s
        fun a s' => Settles e n a s s' := by
    refine refer_settles hk hs hm fun s₁ hserves => .pure ⟨.refl hserves.lexical, fun b hb => ?_⟩
    obtain ⟨c, hc, rfl⟩ := Option.map_eq_some_iff.mp (ha b hb)
    exact .builtin hm hc
  rw [unqualified]
  split
  · next hself =>
      split
      · exact .pure (.of_self hk hself (.refl hs))
      · exact (serves_complain hs _ rfl).bind fun _ _ h => .pure (.of_self hk hself h)
  · refine .get ?_
    rw [hframes, Tree.lookupFrames_frames]
    split
    · next d hd => exact local_settles hk he hrun hs hd hw
    · next hnone =>
        split
        · next d hd =>
            refine declared_settles hk he hrun hs hd ?_ hw
            rw [he.decls] at hd
            rw [Tree.meaning, hnone, hhome]
            simp only [Option.bind_some, hd]
            rw [← he.eq]
        · next hd =>
            have hm : e.tree.meaning n x.text = Tree.builtinNamed x.text := by
              rw [he.decls] at hd
              rw [Tree.meaning, hnone, hhome]
              simp only [Option.bind_some, hd]
            split
            · next hfunction =>
                rw [Tree.builtinNamed, hfunction] at hm
                exact hbuiltin hm (by simp)
            · next hfunction =>
                split
                · next b hb =>
                    rw [Tree.builtinNamed, hb, Option.isSome_some, Bool.or_true] at hm
                    exact hbuiltin hm (by simp [hb])
                · next hb =>
                    rw [Tree.builtinNamed, hb, Bool.eq_false_of_not_eq_true hfunction] at hm
                    exact undefined_settles hk hs hreached hm

end Names

section Arguments

theorem checkEach_serves (hs : s.Lexical e) (l : List (NodeId × Ty × Ty)) :
    Succeeds (checkEach e l) s fun _ s' => Serves e s s' := by
  induction l generalizing s with
  | nil => exact .pure (.refl hs)
  | cons p l ih =>
      obtain ⟨value, found, expected⟩ := p
      refine (serves_expect hs expected found value).bind fun _ s₁ hserves => ?_
      exact (ih hserves.lexical).mono fun _ _ h => hserves.trans h

theorem arguments_serves (hs : s.Lexical e) (n : NodeId) (args : List NodeId)
    (inputs found : List Ty) :
    Succeeds (arguments e n args inputs found) s fun _ s' => Serves e s s' := by
  rw [arguments]
  split
  · exact serves_complain hs _ rfl
  · exact checkEach_serves hs _

end Arguments

section Operands

variable (he : e.Scoped) (hrun : Solves e run w) {n : NodeId} {ctx : Context}

include he

theorem Job.Stands.part (h : Job.Stands e s (.expr n ctx)) {c : NodeId}
    (hc : c ∈ e.tree.children n) : Job.Stands e s (.expr c ctx) := by
  obtain ⟨hn, hreached, hhome, hframes⟩ := h
  have hexpr := Tree.isExpr_of_below he.tree hn (Tree.below_child hc)
  have hbrace : (e.tree.kind n).isBrace = false := by
    cases hk : e.tree.kind n <;> simp [hk, Kind.isExpr, Kind.isBrace] at hn ⊢
  obtain ⟨hhome', hframes'⟩ :=
    Tree.scope_of_expr he.tree (Kind.parameters?_of_isExpr hn) hbrace hc hexpr
  exact ⟨hexpr, hreached.child hc, hhome'.trans hhome, hframes.trans hframes'.symm⟩

omit he in
theorem Job.Stands.later {s₁ : State} (h : Job.Stands e s (.expr n ctx))
    (hserves : Serves e s s₁) : Job.Stands e s₁ (.expr n ctx) :=
  ⟨h.1, h.2.1, h.2.2.1, hserves.frames.trans h.2.2.2⟩

include hrun

theorem operand_serves {c : NodeId} (hs : s.Lexical e) (hstands : Job.Stands e s (.expr n ctx))
    (hw : (Job.expr n ctx).weight e.tree s < w + 1) (hc : c ∈ e.tree.children n) :
    Succeeds (run (.expr c ctx)) s fun a s' =>
      Serves e s s' ∧ s'.Covers e.tree c ∧ s'.Denotes e c a :=
  hrun.expr hs (hstands.part he hc) (Job.affords hw
    (Job.rank_expr_lt (he.tree.child_lt n c hc) (Tree.lt_size_of_child hc)))

theorem operands_serves (cs : List NodeId) (hs : s.Lexical e)
    (hstands : Job.Stands e s (.expr n ctx)) (hw : (Job.expr n ctx).weight e.tree s < w + 1)
    (hcs : ∀ c ∈ cs, c ∈ e.tree.children n) :
    Succeeds (cs.mapM fun c => run (.expr c ctx)) s fun _ s' =>
      Serves e s s' ∧ ∀ c ∈ cs, s'.Covers e.tree c := by
  induction cs generalizing s with
  | nil => exact .pure ⟨.refl hs, List.forall_mem_nil _⟩
  | cons c cs ih =>
      rw [List.mapM_cons]
      refine (operand_serves he hrun hs hstands hw (hcs c (by simp))).bind ?_
      rintro a s₁ ⟨hserves, hcovers, -⟩
      refine (ih hserves.lexical (hstands.later hserves)
        (hserves.weight_lt hw) fun d hd => hcs d (by simp [hd])).bind ?_
      rintro as s₂ ⟨hserves', hrest⟩
      exact .pure ⟨hserves.trans hserves',
        List.forall_mem_cons.mpr ⟨hcovers.later hserves'.toGrows, hrest⟩⟩

theorem applied_serves {callee : NodeId} {args : List NodeId} {after : Ty → List Ty → CheckM Ty}
    {Q : Ty → State → Prop} (hchildren : e.tree.children n = callee :: args)
    (hs : s.Lexical e) (hstands : Job.Stands e s (.expr n ctx))
    (hw : (Job.expr n ctx).weight e.tree s < w + 1)
    (hafter : ∀ ty found s₁, Serves e s s₁ → (∀ c ∈ e.tree.children n, s₁.Covers e.tree c) →
      s₁.Denotes e callee ty → Succeeds (after ty found) s₁ Q) :
    Succeeds (run (.expr callee ctx) >>= fun ty =>
      args.mapM (fun a => run (.expr a ctx)) >>= fun found => after ty found) s Q := by
  refine (operand_serves he hrun hs hstands hw (by simp [hchildren])).bind ?_
  rintro ty s₁ ⟨hserves, hcovers, hdenotes⟩
  refine (operands_serves he hrun args hserves.lexical (hstands.later hserves)
    (hserves.weight_lt hw) (by simp +contextual [hchildren])).bind ?_
  rintro found s₂ ⟨hserves', hrest⟩
  refine hafter ty found s₂ (hserves.trans hserves') ?_ (hdenotes.later hserves'.toGrows)
  rw [hchildren]
  exact List.forall_mem_cons.mpr ⟨hcovers.later hserves'.toGrows, hrest⟩

omit he in
theorem Solves.call (hs : s.Lexical e) (hw : (Job.expr n ctx).weight e.tree s < w + 1)
    {d : NodeId} (hd : (e.tree.kind d).isDeclaration = true) :
    Succeeds (run (.signature d)) s fun _ s' => Serves e s s' :=
  (hrun.signature hs hd (Job.affords hw (by simp only [Job.rank]; omega))).mono fun _ _ h => h.1

omit he in
theorem refer_valueType_serves (hs : s.Lexical e) (hw : (Job.expr n ctx).weight e.tree s < w + 1)
    {d : NodeId} (r : Reference) (hn : ∀ x, e.tree.kind n ≠ .name none x)
    (hd : (e.tree.kind d).isDeclaration = true) :
    Succeeds (refer n r >>= fun _ => valueType e run d) s fun _ s' => Serves e s s' := by
  refine (serves_refer_other hs r hn).bind fun _ s₁ hserves => ?_
  have hw₁ := hserves.weight_lt hw
  refine (valueType_serves hrun hserves.lexical hd ?_ ?_).mono fun _ _ h => hserves.trans h.1
  · exact Job.affords hw₁ (by simp only [Job.rank]; omega)
  · exact Job.affords hw₁ (by simp only [Job.rank]; omega)

theorem qualified_serves (hs : s.Lexical e) (hw : (Job.expr n ctx).weight e.tree s < w + 1)
    (hn : ∀ x, e.tree.kind n ≠ .name none x) (domain : Ty) (x : Name) :
    Succeeds (qualified e run n domain x) s fun _ s' => Serves e s s' := by
  have hnoMember (ty : Ty) : Succeeds (noMember e ty x) s fun _ s' => Serves e s s' :=
    (serves_complain hs _ rfl).bind fun _ _ h => .pure h
  rw [qualified.eq_def]
  split
  · exact .pure (.refl hs)
  · split
    · next m hm =>
        exact refer_valueType_serves hrun hs hw _ hn
          (Kind.isDeclaration_of_declared (he.sane.named (List.mem_of_mem_head? hm)).1)
    · exact hnoMember _
  · split
    · split
      · next m hm =>
          exact refer_valueType_serves hrun hs hw _ hn
            (Kind.isDeclaration_of_declared (he.sane.member hm).1)
      · exact hnoMember _
    · split
      · exact .pure (.refl hs)
      · exact hnoMember _

theorem construction_serves {callee d : NodeId} (args : List NodeId) (found : List Ty)
    (hcall : ∃ c args, e.tree.kind c = .call callee args) (hs : s.Lexical e)
    (hw : (Job.expr n ctx).weight e.tree s < w + 1)
    (hdenotes : s.Denotes e callee (.metatype (.product d))) :
    Succeeds (construction e run n callee args d found) s fun _ s' => Serves e s s' := by
  rw [construction]
  split
  · exact (serves_complain hs _ rfl).bind fun _ _ h => .pure h
  · next i hi =>
      have hmem := pick_mem hi
      refine (serves_refer hs (n := callee) (r := .constructor i) fun x hx => ?_).bind ?_
      · cases hdenotes x hx _ rfl with
        | declared hm _ hvalue =>
            refine .inr ⟨hcall, i, _, d, rfl, hm, ?_, hvalue⟩
            rwa [he.decls] at hmem
      · rintro - s₁ ⟨hserves, -⟩
        refine (hrun.call hserves.lexical (hserves.weight_lt hw)
          (he.sane.initializersOf hmem)).bind fun ty s₂ hserves' => ?_
        split
        · refine (arguments_serves hserves'.lexical n args _ found).bind fun _ s₃ h => ?_
          exact .pure ((hserves.trans hserves').trans h)
        · exact .pure (hserves.trans hserves')

theorem call_settles {callee : NodeId} {args : List (Option Name × NodeId)}
    (hk : e.tree.kind n = .call callee args) (hs : s.Lexical e)
    (hstands : Job.Stands e s (.expr n ctx)) (hw : (Job.expr n ctx).weight e.tree s < w + 1) :
    Succeeds (call e run n callee (args.map (·.2)) ctx) s fun a s' => Settles e n a s s' := by
  have hchildren : e.tree.children n = callee :: args.map (·.2) := by
    rw [Tree.children, hk, Kind.children]
  refine applied_serves he hrun hchildren hs hstands hw ?_
  intro ty found s₁ hserves hparts hdenotes
  have hw₁ := hserves.weight_lt hw
  have hend {a : Ty} {s₂ : State} (hserves' : Serves e s₁ s₂) : Settles e n a s s₂ :=
    .of_other (by simp [hk]) (hserves.trans hserves') fun c hc =>
      (hparts c hc).later hserves'.toGrows
  have hcomplain (site : Site) (c : Complaint) (hc : c.isUndefinedName = false) :
      Succeeds (complain e site c >>= fun _ => pure Ty.error) s₁ fun a s' => Settles e n a s s' :=
    (serves_complain hserves.lexical site hc).bind fun _ _ h => .pure (hend h)
  split
  · next d =>
      have hconstruction := construction_serves he hrun (args.map (·.2)) found ⟨n, args, hk⟩
        hserves.lexical hw₁ hdenotes
      exact hconstruction.mono fun _ _ h => hend h
  · exact .pure (hend (.refl hserves.lexical))
  · exact hcomplain _ _ rfl
  · next inputs output =>
      exact (arguments_serves hserves.lexical n _ inputs found).bind fun _ _ h => .pure (hend h)
  · exact .pure (hend (.refl hserves.lexical))
  · exact hcomplain _ _ rfl

theorem subscript_settles {callee : NodeId} {args : List (Option Name × NodeId)}
    (hk : e.tree.kind n = .subscriptCall callee args) (hs : s.Lexical e)
    (hstands : Job.Stands e s (.expr n ctx)) (hw : (Job.expr n ctx).weight e.tree s < w + 1) :
    Succeeds (subscript e run n callee (args.map (·.2)) ctx) s fun a s' =>
      Settles e n a s s' := by
  have hchildren : e.tree.children n = callee :: args.map (·.2) := by
    rw [Tree.children, hk, Kind.children]
  refine applied_serves he hrun hchildren hs hstands hw ?_
  intro ty found s₁ hserves hparts _
  have hw₁ := hserves.weight_lt hw
  have hend {a : Ty} {s₂ : State} (hserves' : Serves e s₁ s₂) : Settles e n a s s₂ :=
    .of_other (by simp [hk]) (hserves.trans hserves') fun c hc =>
      (hparts c hc).later hserves'.toGrows
  split
  · exact .pure (hend (.refl hserves.lexical))
  · exact .pure (hend (.refl hserves.lexical))
  · dsimp only
    split
    · exact (serves_complain hserves.lexical _ rfl).bind fun _ _ h => .pure (hend h)
    · next i hi =>
        have hdecl : (e.tree.kind i).isDeclaration = true := by
          have hmem := pick_mem hi
          cases howner : ownerOf e.tree ty with
          | none => simp [howner] at hmem
          | some o =>
              simp only [howner, Option.map_some, Option.getD_some] at hmem
              exact he.sane.subscriptsOf hmem
        refine (hrun.call hserves.lexical hw₁ hdecl).bind fun ty' s₂ hserves' => ?_
        split
        · next inputs output =>
            exact (arguments_serves hserves'.lexical n _ inputs found).bind fun _ _ h =>
              .pure (hend (hserves'.trans h))
        · exact .pure (hend hserves')

theorem memberOperator_serves (op : Name) (lhs rhs : Ty) (r : NodeId) (hs : s.Lexical e)
    (hw : (Job.expr n ctx).weight e.tree s < w + 1) (hn : ∀ x, e.tree.kind n ≠ .name none x) :
    Succeeds (memberOperator e run n op lhs rhs r) s fun _ s' => Serves e s s' := by
  have hcomplain (c : Complaint) (hc : c.isUndefinedName = false) {a : Ty} {s₁ : State}
      (hserves : Serves e s s₁) :
      Succeeds (complain e op.site c >>= fun _ => pure a) s₁ fun _ s' => Serves e s s' :=
    (serves_complain hserves.lexical _ hc).bind fun _ _ h => .pure (hserves.trans h)
  unfold memberOperator
  split
  · next d hd =>
      obtain ⟨o, -, hmember⟩ := Option.bind_eq_some_iff.mp hd
      refine (serves_refer_other hs (.member d) hn).bind fun _ s₁ hserves => ?_
      refine (hrun.call hserves.lexical (hserves.weight_lt hw)
        (Kind.isDeclaration_of_declared (he.sane.member hmember).1)).bind fun ty s₂ hserves' => ?_
      have hserves₂ := hserves.trans hserves'
      split
      · exact (serves_expect hserves₂.lexical _ rhs r).bind fun _ _ h => .pure (hserves₂.trans h)
      · exact hcomplain _ rfl hserves₂
      · exact .pure hserves₂
  · split
    · exact .pure (.refl hs)
    · exact hcomplain _ rfl (.refl hs)

theorem binary_settles {l r : NodeId} {op : Name} (hk : e.tree.kind n = .binary l op r)
    (hs : s.Lexical e) (hstands : Job.Stands e s (.expr n ctx))
    (hw : (Job.expr n ctx).weight e.tree s < w + 1) :
    Succeeds (binary e run n l op r ctx) s fun a s' => Settles e n a s s' := by
  have hl : l ∈ e.tree.children n := by simp [Tree.children, hk, Kind.children]
  have hr : r ∈ e.tree.children n := by simp [Tree.children, hk, Kind.children]
  have hn : ∀ x, e.tree.kind n ≠ .name none x := by simp [hk]
  rw [binary]
  refine (operand_serves he hrun hs hstands hw hl).bind ?_
  rintro lhs s₁ ⟨hserves₁, hlcovers, -⟩
  refine (operand_serves he hrun hserves₁.lexical (hstands.later hserves₁)
    (hserves₁.weight_lt hw) hr).bind ?_
  rintro rhs s₂ ⟨hserves₂, hrcovers, -⟩
  have hserves := hserves₁.trans hserves₂
  have hend {a : Ty} {s₃ : State} (hserves₃ : Serves e s₂ s₃) : Settles e n a s s₃ := by
    refine .of_other hn (hserves.trans hserves₃) fun c hc => ?_
    simp only [Tree.children, hk, Kind.children, List.mem_cons, List.not_mem_nil, or_false] at hc
    rcases hc with rfl | rfl
    · exact hlcovers.later (hserves₂.trans hserves₃).toGrows
    · exact hrcovers.later hserves₃.toGrows
  split
  · exact .pure (hend (.refl hserves.lexical))
  · exact .pure (hend (.refl hserves.lexical))
  · split
    · exact (serves_refer_other hserves.lexical _ hn).bind fun _ _ h => .pure (hend h)
    · exact (memberOperator_serves he hrun op lhs rhs r hserves.lexical
        (hserves.weight_lt hw) hn).mono fun _ _ h => hend h

theorem expr_serves (hs : s.Lexical e) (hstands : Job.Stands e s (.expr n ctx))
    (hw : (Job.expr n ctx).weight e.tree s < w + 1) :
    Succeeds (expr e run n ctx) s fun a s' =>
      Serves e s s' ∧ s'.Covers e.tree n ∧ s'.Denotes e n a := by
  have hexpr := hstands.1
  have hdecl : (e.tree.kind n).isDeclaration = false := by
    cases hk : e.tree.kind n <;> simp [hk, Kind.isExpr, Kind.isDeclaration] at hexpr ⊢
  have hwrite {a : Ty} {s₁ : State} (h : Settles e n a s s₁) :
      Succeeds (setType n a >>= fun _ => pure a) s₁ fun a s' =>
        Serves e s s' ∧ s'.Covers e.tree n ∧ s'.Denotes e n a := by
    refine (serves_setType he h.lexical a hdecl (fun x hx => ⟨h.found x hx, h.missed x hx⟩)
      (fun x hx => ?_) h.denotes).bind ?_
    · simp [hx, Kind.isExpr] at hexpr
    rintro - s₂ ⟨hserves, htype, -⟩
    refine .pure ⟨h.toServes.trans hserves, fun x hx hxexpr => ?_,
      h.denotes.later hserves.toGrows⟩
    rcases Tree.below_iff.mp hx with rfl | ⟨c, hc, hx⟩
    · simp [htype]
    · exact (h.parts c hc).later hserves.toGrows x hx hxexpr
  have hleaf (a : Ty) (hn : ∀ x, e.tree.kind n ≠ .name none x)
      (hparts : (e.tree.kind n).children = []) :
      Succeeds (pure a >>= fun a => setType n a >>= fun _ => pure a) s fun a s' =>
        Serves e s s' ∧ s'.Covers e.tree n ∧ s'.Denotes e n a := by
    rw [pure_bind]
    exact hwrite (.of_other hn (.refl hs) (by simp [Tree.children, hparts]))
  rw [expr]
  split
  · next hk => exact hleaf _ (by simp [hk]) (by simp [hk, Kind.children])
  · next hk => exact hleaf _ (by simp [hk]) (by simp [hk, Kind.children])
  · next hk => exact hleaf _ (by simp [hk]) (by simp [hk, Kind.children])
  · next hk => exact hleaf _ (by simp [hk]) (by simp [hk, Kind.children])
  · next d x hk =>
      have hn : ∀ y, e.tree.kind n ≠ .name none y := by simp [hk]
      have hd : d ∈ e.tree.children n := by simp [Tree.children, hk, Kind.children]
      refine (operand_serves he hrun hs hstands hw hd).bind ?_
      rintro domain s₁ ⟨hserves, hcovers, -⟩
      refine (qualified_serves he hrun hserves.lexical
        (hserves.weight_lt hw) hn domain x).bind ?_
      intro a s₂ hserves'
      refine hwrite (.of_other hn (hserves.trans hserves') fun c hc => ?_)
      obtain rfl : c = d := by simpa [Tree.children, hk, Kind.children] using hc
      exact hcovers.later hserves'.toGrows
  · next hk => exact (unqualified_settles hk he hrun hs hstands hw).bind fun a s₁ h => hwrite h
  · next hk => exact (call_settles he hrun hk hs hstands hw).bind fun a s₁ h => hwrite h
  · next hk => exact (subscript_settles he hrun hk hs hstands hw).bind fun a s₁ h => hwrite h
  · next hk => exact (binary_settles he hrun hk hs hstands hw).bind fun a s₁ h => hwrite h
  · next es hk =>
      have hchildren : e.tree.children n = es := by rw [Tree.children, hk, Kind.children]
      refine (operands_serves he hrun es hs hstands hw (by simp [hchildren])).bind ?_
      rintro ts s₁ ⟨hserves, hcovers⟩
      rw [pure_bind]
      exact hwrite (.of_other (by simp [hk]) hserves (by simpa [hchildren] using hcovers))
  · clear hwrite hleaf
    cases hk : e.tree.kind n with
    | name domain x => cases domain <;> simp_all
    | _ => simp_all [Kind.isExpr]

end Operands

end Check

end LanguageService
