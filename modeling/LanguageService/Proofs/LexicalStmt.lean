import LanguageService.Proofs.LexicalBinding

/-!
Statements are checked one after another, each with the names in scope that the blocks around it
have bound before, and a block gives back the scope it was entered with.
-/
namespace LanguageService

namespace Tree

variable {t : Tree} (ht : t.WellFormed) {n c : NodeId}

theorem boundBy_of_isDecl (h : (t.kind n).isDecl = false) : t.boundBy n = [] := by
  rw [boundBy]
  split
  · next hk => simp [hk, Kind.isDecl] at h
  · rfl

include ht

theorem frames_of_arm (hn : (t.kind n).isStmt = true) (hbrace : (t.kind n).isBrace = false)
    (hc : c ∈ t.children n) : t.frames c = t.frames n := by
  rw [frames, locals_of_child ht hc, localsAt_of_isBrace hbrace, Kind.parameters?_of_isStmt hn]
  rfl

theorem frames_of_stmt {ss pre post : List NodeId} (hk : t.kind n = .brace ss)
    (hss : ss = pre ++ c :: post) :
    t.frames c = t.bindAll (pre.flatMap t.boundBy) ([] :: t.frames n) := by
  have hchildren : t.children n = ss := by rw [children, hk, Kind.children]
  have hnodup := ht.children_nodup n
  rw [hchildren, hss, List.nodup_append] at hnodup
  have hbefore : ss.takeWhile (· != c) = pre := by
    rw [hss, List.takeWhile_append_of_pos, List.takeWhile_cons_of_neg (by simp), List.append_nil]
    intro a ha
    simpa using hnodup.2.2 a ha c (by simp)
  have hc : c ∈ t.children n := by simp [hchildren, hss]
  have hlocals : t.localsAt c n = some (pre.flatMap t.boundBy).reverse := by
    rw [localsAt, hk]
    simp only [hbefore]
  rw [frames, locals_of_child ht hc, hlocals, bindAll]
  simp [frames]

theorem host?_of_stmt (hc : c ∈ t.children n) (hparameters : (t.kind c).parameters? = none) :
    t.host? c = t.host? n :=
  host?_of_child ht hc (by rw [Kind.hasParameters, hparameters]; rfl)

end Tree

namespace Check

variable {e : Env} {run : Run} {w : Nat} {s : State}

theorem Succeeds.each_cons {j : Job} {js : List Job} {R : Ty → State → Prop}
    {Q : Unit → State → Prop} (h : Succeeds (run j) s R)
    (hjs : ∀ a s₁, R a s₁ → Succeeds (each run js) s₁ Q) : Succeeds (each run (j :: js)) s Q := by
  have heq : each run (j :: js) = (run j >>= fun _ => each run js) := by simp [each]
  rw [heq]
  exact h.bind hjs

section Stmts

variable (he : e.Scoped) (hrun : Solves e run w) {n : NodeId} {ctx : Context}

include he hrun

theorem stmts_pass (ss : List NodeId) (hs : s.Lexical e) (hreached : e.tree.Reached n)
    (hhost : e.tree.host? n = some ctx.scope) (hctx : ctx.Generic e.tree)
    (hsub : ss.Sublist (e.tree.children n))
    (hstmts : ∀ c ∈ ss, (e.tree.kind c).isStmt = true)
    (hframes : ∀ pre c post, ss = pre ++ c :: post →
      e.tree.frames c = e.tree.bindAll (pre.flatMap e.tree.boundBy) s.frames)
    (huntouched : ∀ c ∈ ss, s.Untouched e.tree c)
    (hw : (Job.stmt n ctx).weight e.tree s < w + 1) :
    Succeeds (each run (ss.map fun c => .stmt c ctx)) s fun _ s' =>
      Passes e (fun x => ∃ c ∈ ss, e.tree.Below c x) s s' ∧
        s'.frames = e.tree.bindAll (ss.flatMap e.tree.boundBy) s.frames ∧
        ∀ c ∈ ss, s'.Covers e.tree c := by
  induction ss generalizing s with
  | nil =>
      refine .pure ⟨.refl hs, ?_, List.forall_mem_nil _⟩
      rw [List.flatMap_nil, Tree.bindAll_nil]
  | cons c ss ih =>
      have hchild : c ∈ e.tree.children n := hsub.subset (by simp)
      have hstmt := hstmts c (by simp)
      have hapart := (Tree.children_pairwise he.tree n).sublist hsub
      rw [List.pairwise_cons] at hapart
      have hstands : Job.Stands e s (.stmt c ctx) := by
        refine ⟨hstmt, hreached.child hchild, ?_, hctx, ?_, huntouched c (by simp)⟩
        · rw [Tree.host?_of_stmt he.tree hchild (Kind.parameters?_of_isStmt hstmt), hhost]
        · rw [hframes [] c ss rfl, List.flatMap_nil, Tree.bindAll_nil]
      have hrank : (Job.stmt c ctx).rank e.tree < (Job.stmt n ctx).rank e.tree :=
        Job.rank_stmt_lt (he.tree.child_lt n c hchild) (Tree.lt_size_of_child hchild)
      refine .each_cons (hrun (.stmt c ctx) s hs hstands (Job.affords hw hrank)) ?_
      rintro a s₁ ⟨hpasses, hbound, hcovers⟩
      refine (ih hpasses.lexical ((List.sublist_cons_self c ss).trans hsub)
        (fun d hd => hstmts d (by simp [hd])) (fun pre d post hss => ?_) (fun d hd => ?_)
        (hpasses.weight_lt hw)).mono ?_
      · rw [hframes (c :: pre) d post (by rw [hss, List.cons_append]), List.flatMap_cons,
          Tree.bindAll_append, hbound]
      · exact (huntouched d (by simp [hd])).later hpasses.toGrows
          fun x hx => hapart.1 d hd x hx.symm
      · rintro - s₂ ⟨hpasses', hbound', hcovers'⟩
        refine ⟨.cons hpasses hpasses', ?_, ?_⟩
        · rw [hbound', hbound, List.flatMap_cons, Tree.bindAll_append]
        · exact List.forall_mem_cons.mpr ⟨hcovers.later hpasses'.toGrows, hcovers'⟩

theorem brace_passes {ss : List NodeId} (hk : e.tree.kind n = .brace ss) (hs : s.Lexical e)
    (hstands : Job.Stands e s (.stmt n ctx)) (hw : (Job.stmt n ctx).weight e.tree s < w + 1) :
    Succeeds (do
      modify fun s => { s with frames := [] :: s.frames }
      each run (ss.map fun n => .stmt n ctx)
      modify fun s => { s with frames := s.frames.tail }) s fun _ s' =>
      Passes e (e.tree.Below n) s s' ∧ s'.frames = s.frames ∧ s'.Covers e.tree n := by
  obtain ⟨-, hreached, hhost, hctx, hframes, huntouched⟩ := hstands
  have hchildren : e.tree.children n = ss := by rw [Tree.children, hk, Kind.children]
  have hopen : Passes e (e.tree.Below n) s { s with frames := [] :: s.frames } :=
    ⟨.of_eq id rfl rfl rfl rfl, hs.of_eq rfl rfl rfl fun _ => id⟩
  refine .bind (.modify (Q := fun _ s' => s' = _) rfl) ?_
  rintro - s₁ rfl
  refine (stmts_pass he hrun ss hopen.lexical hreached hhost hctx (by rw [hchildren])
    (fun c hc => ?_) (fun pre c post hss => ?_) (fun c hc => ?_)
    (hopen.weight_lt hw)).bind ?_
  · exact he.tree.fits n (Kind.isStmt, c) (by simp [hk, Kind.parts, hc])
  · rw [Tree.frames_of_stmt he.tree hk hss, hframes]
  · exact fun b hb hbelow => huntouched b hb (.of_child (hchildren ▸ hc) hbelow)
  · rintro - s₂ ⟨hpasses, hbound, hcovers⟩
    have hclose : Passes e (e.tree.Below n) s₂ { s₂ with frames := s₂.frames.tail } :=
      ⟨.of_eq id rfl rfl rfl rfl, hpasses.lexical.of_eq rfl rfl rfl fun _ => id⟩
    refine .modify ⟨(hopen.trans (hpasses.widen ?_)).trans hclose, ?_, ?_⟩
    · rintro x ⟨c, hc, hx⟩
      exact .of_child (hchildren ▸ hc) hx
    · rw [hbound]
      rfl
    · exact .of_children (by simp [hk, Kind.isExpr]) (by rwa [hchildren])

theorem exprPart_serves {c : NodeId} (hs : s.Lexical e) (hstands : Job.Stands e s (.stmt n ctx))
    (hw : (Job.stmt n ctx).weight e.tree s < w + 1) (hbrace : (e.tree.kind n).isBrace = false)
    (hc : (Kind.isExpr, c) ∈ (e.tree.kind n).parts) :
    Succeeds (run (.expr c ctx)) s fun _ s' => Serves e s s' ∧ s'.Covers e.tree c := by
  obtain ⟨hn, hreached, hhost, -, hframes, -⟩ := hstands
  have hchild := Tree.child_of_part hc
  have hexpr := he.tree.fits n _ hc
  obtain ⟨hhome, hframes'⟩ :=
    Tree.scope_of_expr he.tree (Kind.parameters?_of_isStmt hn) hbrace hchild hexpr
  refine (hrun.expr hs ⟨hexpr, hreached.child hchild, ?_, hframes.trans hframes'.symm⟩
    (Job.affords hw ?_)).mono fun _ _ h => ⟨h.1, h.2.1⟩
  · rw [hhome, Tree.home?_of_host? hhost]
  · simp only [Job.rank]
    omega

omit he hrun in
theorem Job.Stands.stmt_later {s₁ : State} (h : Job.Stands e s (.stmt n ctx))
    (hserves : Serves e s s₁) : Job.Stands e s₁ (.stmt n ctx) := by
  obtain ⟨hn, hreached, hhost, hctx, hframes, huntouched⟩ := h
  exact ⟨hn, hreached, hhost, hctx, hserves.frames.trans hframes,
    huntouched.later hserves.toGrows fun _ hx => hx.2⟩

theorem conditional_passes {c : NodeId} (ss : List NodeId)
    (hparts : (e.tree.kind n).parts = (Kind.isExpr, c) :: ss.map (Kind.isStmt, ·))
    (harms : (e.tree.kind n).arms = ss) (hbrace : (e.tree.kind n).isBrace = false)
    (hs : s.Lexical e) (hstands : Job.Stands e s (.stmt n ctx))
    (hw : (Job.stmt n ctx).weight e.tree s < w + 1) :
    Succeeds (do
      condition e run c ctx
      each run (ss.map fun n => .stmt n ctx)) s fun _ s' =>
      Passes e (e.tree.Below n) s s' ∧ s'.frames = s.frames ∧ s'.Covers e.tree n := by
  obtain ⟨hn, hreached, hhost, hctx, -, -⟩ := id hstands
  have hchildren : e.tree.children n = c :: ss := by
    rw [Tree.children, ← Kind.parts_map_snd, hparts]
    simp [Function.comp_def]
  have hbinds : ∀ ds : List NodeId, ds ⊆ ss → ds.flatMap e.tree.boundBy = [] := by
    intro ds hds
    refine List.flatMap_eq_nil_iff.mpr fun d hd => Tree.boundBy_of_isDecl ?_
    exact he.blocks n d (by rw [harms]; exact hds hd)
  rw [condition, bind_assoc]
  refine (exprPart_serves he hrun hs hstands hw hbrace (by simp [hparts])).bind ?_
  rintro ty s₁ ⟨hserves₁, hcovers⟩
  refine (serves_expect hserves₁.lexical .bool ty c).bind fun _ s₂ hserves₂ => ?_
  have hserves := hserves₁.trans hserves₂
  obtain ⟨-, -, -, -, hframes, huntouched⟩ := hstands.stmt_later hserves
  refine (stmts_pass he hrun ss hserves.lexical hreached hhost hctx (by simp [hchildren])
    (fun d hd => ?_) (fun pre d post hss => ?_) (fun d hd => ?_)
    (hserves.weight_lt hw)).mono ?_
  · exact he.tree.fits n (Kind.isStmt, d) (by simp [hparts, hd])
  · rw [hbinds pre (by simp [hss]), Tree.bindAll_nil, hframes]
    exact Tree.frames_of_arm he.tree hn hbrace (by simp [hchildren, hss])
  · exact fun b hb hbelow => huntouched b hb (.of_child (by simp [hchildren, hd]) hbelow)
  · rintro - s₃ ⟨hpasses, hbound, hcovers'⟩
    refine ⟨hserves.anywhere.trans (hpasses.widen ?_), ?_, ?_⟩
    · rintro x ⟨d, hd, hx⟩
      exact .of_child (by simp [hchildren, hd]) hx
    · rw [hbound, hbinds ss (List.Subset.refl ss), Tree.bindAll_nil, hserves.frames]
    · refine .of_children ?_ ?_
      · cases hk : e.tree.kind n <;> simp [hk, Kind.isStmt, Kind.isExpr] at hn ⊢
      · rw [hchildren]
        exact List.forall_mem_cons.mpr
          ⟨(hcovers.later hserves₂.toGrows).later hpasses.toGrows, hcovers'⟩

theorem decl_stmt_passes {b : NodeId} (hk : e.tree.kind n = .decl b) (hs : s.Lexical e)
    (hstands : Job.Stands e s (.stmt n ctx)) (hw : (Job.stmt n ctx).weight e.tree s < w + 1) :
    Succeeds (each run [.binding b ctx true]) s fun _ s' =>
      Passes e (e.tree.Below n) s s' ∧
        s'.frames = e.tree.bindAll (e.tree.boundBy n) s.frames ∧ s'.Covers e.tree n := by
  obtain ⟨hn, hreached, hhost, hctx, hframes, huntouched⟩ := hstands
  have hpart : (Kind.isBinding, b) ∈ (e.tree.kind n).parts := by simp [hk, Kind.parts]
  have hchild := Tree.child_of_part hpart
  have hbinding := he.tree.fits n _ hpart
  obtain ⟨p, initializer, hb⟩ := Kind.exists_of_isBinding hbinding
  have hlocal : e.tree.IsLocal b := ⟨n, hk⟩
  have hunchecked := huntouched b hlocal (Tree.below_child hchild)
  have hhost' : e.tree.host? b = some ctx.scope := by
    rw [Tree.host?_of_stmt he.tree hchild (Kind.parameters?_of_isBinding hbinding), hhost]
  have hframes' : s.frames = e.tree.frames b := by
    rw [hframes, Tree.frames_of_arm he.tree hn (by simp [hk, Kind.isBrace]) hchild]
  have hbound : e.tree.boundBy n = e.tree.patternVars p := by simp only [Tree.boundBy, hk, hb]
  refine .each_cons (hrun (.binding b ctx true) s hs ⟨hbinding, hreached.child hchild,
    Tree.home?_of_host? hhost', hctx, hframes', fun _ => ⟨hlocal, hunchecked⟩, by simp⟩
    (Job.affords hw (by simp only [Job.rank]; omega))) ?_
  rintro a s' ⟨hpasses, hchecked, -, hframes''⟩
  refine .pure ⟨hpasses.widen fun x hx => .of_child hchild hx, ?_, ?_⟩
  · rw [hbound]
    exact hframes'' rfl p initializer hb
  · refine .of_children (by simp [hk, Kind.isExpr]) fun c hc => ?_
    obtain rfl : c = b := by simpa [Tree.children, hk, Kind.children] using hc
    exact (hpasses.covers c hchecked).resolve_left hunchecked

theorem stmt_passes (hs : s.Lexical e) (hstands : Job.Stands e s (.stmt n ctx))
    (hw : (Job.stmt n ctx).weight e.tree s < w + 1) :
    Succeeds (stmt e run n ctx) s fun _ s' => Passes e (e.tree.Below n) s s' ∧
      s'.frames = e.tree.bindAll (e.tree.boundBy n) s.frames ∧ s'.Covers e.tree n := by
  have hn := hstands.1
  have hnothing {m : CheckM Unit} (hdecl : (e.tree.kind n).isDecl = false)
      (hm : Succeeds m s fun _ s' =>
        Passes e (e.tree.Below n) s s' ∧ s'.frames = s.frames ∧ s'.Covers e.tree n) :
      Succeeds m s fun _ s' => Passes e (e.tree.Below n) s s' ∧
        s'.frames = e.tree.bindAll (e.tree.boundBy n) s.frames ∧ s'.Covers e.tree n := by
    rwa [Tree.boundBy_of_isDecl hdecl, Tree.bindAll_nil]
  have hend {s' : State} (hserves : Serves e s s')
      (hcovers : ∀ c ∈ e.tree.children n, s'.Covers e.tree c) :
      Passes e (e.tree.Below n) s s' ∧ s'.frames = s.frames ∧ s'.Covers e.tree n := by
    refine ⟨hserves.anywhere, hserves.frames, .of_children ?_ hcovers⟩
    cases hk : e.tree.kind n <;> simp [hk, Kind.isStmt, Kind.isExpr] at hn ⊢
  rw [stmt]
  split
  · next hk =>
      exact hnothing (by simp [hk, Kind.isDecl]) (brace_passes he hrun hk hs hstands hw)
  · next introducer value hk =>
      refine hnothing (by simp [hk, Kind.isDecl]) ?_
      dsimp only
      split
      · next v =>
          refine (exprPart_serves he hrun hs hstands hw (by simp [hk, Kind.isBrace])
            (by simp [hk, Kind.parts])).bind ?_
          rintro ty s₁ ⟨hserves, hcovers⟩
          refine (serves_expect hserves.lexical _ ty v).mono fun _ s₂ hserves' => ?_
          refine hend (hserves.trans hserves') fun c hc => ?_
          obtain rfl : c = v := by simpa [Tree.children, hk, Kind.children] using hc
          exact hcovers.later hserves'.toGrows
      · have hcovers (s' : State) : ∀ c ∈ e.tree.children n, s'.Covers e.tree c := by
          simp [Tree.children, hk, Kind.children]
        split
        · exact .pure (hend (.refl hs) (hcovers s))
        · exact (serves_complain hs _ rfl).mono fun _ s' h => hend h (hcovers s')
  · next c hk =>
      refine hnothing (by simp [hk, Kind.isDecl]) ?_
      refine .each_cons (exprPart_serves he hrun hs hstands hw (by simp [hk, Kind.isBrace])
        (by simp [hk, Kind.parts])) ?_
      rintro ty s₁ ⟨hserves, hcovers⟩
      refine .pure (hend hserves fun d hd => ?_)
      obtain rfl : d = c := by simpa [Tree.children, hk, Kind.children] using hd
      exact hcovers
  · next l r hk =>
      refine hnothing (by simp [hk, Kind.isDecl]) ?_
      refine (exprPart_serves he hrun hs hstands hw (by simp [hk, Kind.isBrace])
        (by simp [hk, Kind.parts])).bind ?_
      rintro target s₁ ⟨hserves₁, hlcovers⟩
      refine (exprPart_serves he hrun hserves₁.lexical (hstands.stmt_later hserves₁)
        (hserves₁.weight_lt hw) (by simp [hk, Kind.isBrace])
        (by simp [hk, Kind.parts])).bind ?_
      rintro value s₂ ⟨hserves₂, hrcovers⟩
      refine (serves_expect hserves₂.lexical target value r).mono fun _ s₃ hserves₃ => ?_
      refine hend ((hserves₁.trans hserves₂).trans hserves₃) fun c hc => ?_
      simp only [Tree.children, hk, Kind.children, List.mem_cons, List.not_mem_nil,
        or_false] at hc
      rcases hc with rfl | rfl
      · exact hlcovers.later (hserves₂.trans hserves₃).toGrows
      · exact hrcovers.later hserves₃.toGrows
  · next hk =>
      exact hnothing (by simp [hk, Kind.isDecl]) (conditional_passes he hrun [_]
        (by simp [hk, Kind.parts]) (by simp [hk, Kind.arms]) (by simp [hk, Kind.isBrace]) hs
        hstands hw)
  · next yes _ no hk =>
      exact hnothing (by simp [hk, Kind.isDecl]) (conditional_passes he hrun
        (yes :: no.toList) (by simp [hk, Kind.parts]) (by simp [hk, Kind.arms])
        (by simp [hk, Kind.isBrace]) hs hstands hw)
  · next hk => exact decl_stmt_passes he hrun hk hs hstands hw
  · next hcond _ =>
      cases hk : e.tree.kind n with
      | cond introducer c yes elseIntroducer no => exact absurd hk (hcond _ _ _ _ _)
      | _ => simp_all [Kind.isStmt]

end Stmts

end Check

end LanguageService
