import LanguageService.Proofs.CheckedBinding

namespace LanguageService.Check

variable {e : Env} {run : Run} {opened : NodeId → Prop} {s : State}

theorem Finished.of_parts {t : Tree} (ht : t.WellFormed) {n : NodeId}
    (hn : (t.kind n).isOuter = true) (hparts : ∀ c ∈ t.children n, Finished t c s)
    (hrule : s.Clean → (s.program t).Lawful n) : Finished t n s where
  guards := by
    intro x hx
    rcases Tree.below_iff.mp hx with rfl | ⟨c, hc, hx⟩
    · exact fun b hb hbelow => absurd hbelow (Tree.not_below_binding ht hb hn)
    · exact (hparts c hc).guards x hx
  lawful := by
    intro hclean x hx
    rcases Tree.below_iff.mp hx with rfl | ⟨c, hc, hx⟩
    · exact hrule hclean
    · exact (hparts c hc).lawful hclean x hx

theorem Finished.of_isInert {t : Tree} (ht : t.WellFormed) {n c : NodeId}
    (hc : c ∈ t.children n) (hn : (t.kind n).isOuter = true) (hinert : (t.kind c).isInert = true) :
    Finished t c s where
  guards := by
    intro x hx b hb hbelow
    rcases hx.linear ht hbelow with hcb | hbc
    · have hbinding := Kind.isBinding_of_isInert (Tree.isInert_of_below ht hinert hcb)
      simp [hb] at hbinding
    · exact absurd hbc (Tree.not_below_of_child ht hc hn hb (Kind.isBinding_of_isInert hinert))
  lawful := fun _ _ hx =>
    .of_hasRule (Kind.hasRule_of_isInert (Tree.isInert_of_below ht hinert hx))

def State.GivesBack (s : State) (t : Tree) (ty : Ty) (n : NodeId) : Prop :=
  s.Clean → ∀ x, t.Below n x → (s.program t).Returns ty x

theorem returns_of_kind {p : Program} {ty : Ty} {x : NodeId}
    (h : (p.tree.kind x).isStmt = false) : p.Returns ty x := by
  intro introducer value hk
  simp [hk, Kind.isStmt] at h

theorem State.GivesBack.of_isExpr {t : Tree} (ht : t.WellFormed) {ty : Ty} {n : NodeId}
    (hn : (t.kind n).isExpr = true) : s.GivesBack t ty n := by
  intro _ x hx
  have hexpr := Tree.isExpr_of_below ht hn hx
  refine returns_of_kind ?_
  change (t.kind x).isStmt = false
  cases hk : t.kind x <;> simp [hk, Kind.isExpr, Kind.isStmt] at hexpr ⊢

theorem State.GivesBack.of_isBinding {t : Tree} (ht : t.WellFormed) {ty : Ty} {b : NodeId}
    (hb : (t.kind b).isBinding = true) : s.GivesBack t ty b := by
  intro _ x hx
  refine returns_of_kind ?_
  change (t.kind x).isStmt = false
  by_contra hstmt
  exact Tree.not_below_binding ht hb (Kind.isOuter_of_isStmt (by simpa using hstmt)) hx

section Stmts

variable (ht : e.tree.WellFormed) {n : NodeId} {ctx : Context}

include ht

theorem Job.Ready.exprPart (h : Job.Ready e.tree opened s (.stmt n ctx)) {c : NodeId}
    (hc : (Kind.isExpr, c) ∈ (e.tree.kind n).parts) : Job.Ready e.tree opened s (.expr c ctx) := by
  obtain ⟨hn, hctx, hidle, hfresh⟩ := h
  have hexpr := ht.fits n _ hc
  have hchild := Tree.child_of_part hc
  have hfree : ∀ b, (e.tree.kind b).isBinding = true → ¬ e.tree.Below b c := fun b hb =>
    Tree.not_below_of_child ht hchild (Kind.isOuter_of_isStmt hn) hb
      (Kind.isBinding_of_isExpr hexpr)
  refine ⟨hexpr, hctx, fun b hb hbelow => absurd hbelow (hfree b hb), fun x hx hxexpr => ?_,
    hidle.concernsAround⟩
  refine hfresh x (.of_child hchild hx) hxexpr fun b hb hbelow => ?_
  rcases hx.linear ht hbelow with hcb | hbc
  · simpa [hb] using Kind.isBinding_of_isExpr (Tree.isExpr_of_below ht hexpr hcb)
  · exact hfree b hb hbc

theorem Job.Ready.stmtPart (h : Job.Ready e.tree opened s (.stmt n ctx)) {c : NodeId}
    (hc : (Kind.isStmt, c) ∈ (e.tree.kind n).parts) : Job.Ready e.tree opened s (.stmt c ctx) := by
  obtain ⟨hn, hctx, hidle, hfresh⟩ := h
  exact ⟨ht.fits n _ hc, hctx, hidle, fun x hx =>
    hfresh x (.of_child (Tree.child_of_part hc) hx)⟩

theorem stmt_result {a : Ty} (hn : (e.tree.kind n).isStmt = true)
    (hparts : ∀ c ∈ e.tree.children n, Finished e.tree c s ∧
      s.GivesBack e.tree (ctx.returnType.getD .error) c)
    (hrule : s.Clean → (s.program e.tree).Lawful n)
    (hreturns : s.Clean → (s.program e.tree).Returns (ctx.returnType.getD .error) n) :
    Job.Result e.tree a s (.stmt n ctx) := by
  refine ⟨hn, .of_parts ht (Kind.isOuter_of_isStmt hn) (fun c hc => (hparts c hc).1) hrule, ?_⟩
  intro hclean x hx
  rcases Tree.below_iff.mp hx with rfl | ⟨c, hc, hx⟩
  · exact hreturns hclean
  · exact (hparts c hc).2 hclean x hx

variable (hrun : Obeys e.tree run)

include hrun

theorem stmts_spec {ss : List NodeId} (hss : ss.Sublist (e.tree.children n))
    (hinv : Invariant e.tree opened s)
    (hready : ∀ c ∈ ss, Job.Ready e.tree opened s (.stmt c ctx)) :
    Ends (each run (ss.map fun c => .stmt c ctx)) s fun _ s' =>
      Moves e.tree opened (fun x => ∃ c ∈ ss, e.tree.Below c x) s s' ∧
        ∀ c ∈ ss, Finished e.tree c s' ∧
          s'.GivesBack e.tree (ctx.returnType.getD .error) c := by
  have hapart : (ss.map fun c => Job.stmt c ctx).Pairwise (Job.Apart e.tree) :=
    List.pairwise_map.mpr ((Tree.children_pairwise ht n).sublist hss)
  refine (each_spec ht hrun hapart hinv (by simpa using hready)).mono ?_
  rintro - s' ⟨hmoves, hresults⟩
  refine ⟨hmoves.widen (by simp [Job.Region]), fun c hc => ?_⟩
  obtain ⟨a, -, hfinished, hreturns⟩ := hresults _ (List.mem_map_of_mem hc)
  exact ⟨hfinished, hreturns⟩

theorem brace_spec {ss : List NodeId} (hk : e.tree.kind n = .brace ss)
    (hinv : Invariant e.tree opened s) (hready : Job.Ready e.tree opened s (.stmt n ctx)) :
    Ends (do
      modify fun s => { s with frames := [] :: s.frames }
      each run (ss.map fun n => .stmt n ctx)
      modify fun s => { s with frames := s.frames.tail }) s fun _ s' =>
      Moves e.tree opened (e.tree.Below n) s s' ∧
        ∀ a, Job.Result e.tree a s' (.stmt n ctx) := by
  have hchildren : e.tree.children n = ss := by rw [Tree.children, hk, Kind.children]
  have hopen : Moves e.tree opened nowhere s { s with frames := [] :: s.frames } := by
    refine moves_frames hinv ?_
    rintro f (_ | ⟨_, hf⟩)
    · simp
    · exact hinv.frames f hf
  refine .bind (.modify (Q := fun _ s' => s' = _) rfl) ?_
  rintro - s₁ rfl
  refine (stmts_spec ht hrun (n := n) (by simp [hchildren]) hopen.invariant fun c hc => ?_).bind ?_
  · exact (hready.stmtPart ht (by simp [hk, Kind.parts, hc])).later ht hopen fun _ hx => hx.2
  · rintro - s₂ ⟨hmoves, hparts⟩
    have hclose : Moves e.tree opened nowhere s₂ { s₂ with frames := s₂.frames.tail } :=
      moves_frames hmoves.invariant fun f hf => hmoves.invariant.frames f (List.mem_of_mem_tail hf)
    refine .modify ⟨(hopen.anywhere.trans (hmoves.widen ?_)).trans hclose.anywhere, fun a => ?_⟩
    · rintro x ⟨c, hc, hx⟩
      exact .of_child (hchildren ▸ hc) hx
    · refine stmt_result ht hready.1 (fun c hc => ?_) (fun _ => .of_hasRule ?_) fun _ => ?_
      · obtain ⟨hfinished, hreturns⟩ := hparts c (hchildren ▸ hc)
        exact ⟨hfinished.later ht hclose.effect fun _ hx => hx.2, hreturns⟩
      · simp [State.program, hk, Kind.hasRule]
      · intro introducer value hret
        simp [State.program, hk] at hret

omit hrun in
theorem ret_result {introducer : Site} {value : Option NodeId}
    (hk : e.tree.kind n = .ret introducer value)
    (hready : Job.Ready e.tree opened s (.stmt n ctx)) {s' : State}
    (hmoves : Moves e.tree opened (e.tree.Below n) s s')
    (hvalue : ∀ v, value = some v → Finished e.tree v s')
    (hreturns : s'.Clean → (s'.program e.tree).Returns (ctx.returnType.getD .error) n) :
    Moves e.tree opened (e.tree.Below n) s s' ∧
      ∀ a, Job.Result e.tree a s' (.stmt n ctx) := by
  have hrule : (s'.program e.tree).Lawful n :=
    .of_hasRule (by simp [State.program, hk, Kind.hasRule])
  refine ⟨hmoves, fun a => stmt_result ht hready.1 (fun c hc => ?_) (fun _ => hrule) hreturns⟩
  rw [Tree.children, hk, Kind.children, Option.mem_toList] at hc
  have hexpr := ht.fits n (Kind.isExpr, c) (by rw [hk, Kind.parts, hc]; simp)
  exact ⟨hvalue c hc, .of_isExpr ht hexpr⟩

theorem ret_value_spec {introducer : Site} {v : NodeId}
    (hk : e.tree.kind n = .ret introducer (some v)) (hinv : Invariant e.tree opened s)
    (hready : Job.Ready e.tree opened s (.stmt n ctx)) :
    Ends (run (.expr v ctx) >>= fun ty => expect e (ctx.returnType.getD .error) ty v) s
      fun _ s' => Moves e.tree opened (e.tree.Below n) s s' ∧
        ∀ a, Job.Result e.tree a s' (.stmt n ctx) := by
  have hv : (Kind.isExpr, v) ∈ (e.tree.kind n).parts := by simp [hk, Kind.parts]
  refine (hrun opened (.expr v ctx) s hinv (hready.exprPart ht hv)).bind ?_
  rintro ty s₁ ⟨hmoves, -, -, htype, hfinished, -⟩
  refine (expect_spec e _ ty v s₁).mono ?_
  rintro - s₂ ⟨hquiet, hcompatible⟩
  have hmoves' : Moves e.tree opened nowhere s₁ s₂ := hquiet.moves hmoves.invariant
  have hbelow : Moves e.tree opened (e.tree.Below n) s s₁ :=
    hmoves.widen fun x hx => .of_child (Tree.child_of_part hv) hx
  refine ret_result ht hk hready (hbelow.trans hmoves'.anywhere) ?_ ?_
  · rintro _ ⟨⟩
    exact hfinished.later ht hmoves'.effect fun _ hx => hx.2
  · intro hclean introducer' value' hret
    obtain ⟨-, rfl⟩ := Kind.ret.inj (hk.symm.trans hret)
    refine ⟨ty, ?_, hcompatible hclean⟩
    rw [hquiet.same]
    exact htype

omit hrun in
theorem bare_ret_spec {introducer : Site} (hk : e.tree.kind n = .ret introducer none)
    (hinv : Invariant e.tree opened s) (hready : Job.Ready e.tree opened s (.stmt n ctx)) :
    Ends (if Ty.void.compatible (ctx.returnType.getD .error) then pure ()
      else complain e introducer (.missingValue (ctx.returnType.getD .error))) s fun _ s' =>
      Moves e.tree opened (e.tree.Below n) s s' ∧
        ∀ a, Job.Result e.tree a s' (.stmt n ctx) := by
  split
  · next hvoid =>
      refine .pure (ret_result ht hk hready (.refl hinv) (by simp) ?_)
      intro _ introducer' value' hret
      obtain ⟨-, rfl⟩ := Kind.ret.inj (hk.symm.trans hret)
      exact hvoid
  · refine (complain_spec e _ _ s).mono ?_
    rintro - s₁ ⟨hquiet, hunclean⟩
    exact ret_result ht hk hready (hquiet.moves hinv) (by simp) fun hclean =>
      absurd hclean hunclean

theorem assign_spec {l r : NodeId} (hk : e.tree.kind n = .assign l r)
    (hinv : Invariant e.tree opened s) (hready : Job.Ready e.tree opened s (.stmt n ctx)) :
    Ends (do
      let target ← run (.expr l ctx)
      let value ← run (.expr r ctx)
      expect e target value r) s fun _ s' =>
      Moves e.tree opened (e.tree.Below n) s s' ∧
        ∀ a, Job.Result e.tree a s' (.stmt n ctx) := by
  have hl : (Kind.isExpr, l) ∈ (e.tree.kind n).parts := by simp [hk, Kind.parts]
  have hr : (Kind.isExpr, r) ∈ (e.tree.kind n).parts := by simp [hk, Kind.parts]
  have hchildren : e.tree.children n = [l, r] := by rw [Tree.children, hk, Kind.children]
  have hapart : ∀ x, ¬ (e.tree.Below l x ∧ e.tree.Below r x) := by
    have hpairwise := Tree.children_pairwise ht n
    simp only [hchildren, List.pairwise_cons, List.mem_singleton, forall_eq] at hpairwise
    exact hpairwise.1
  refine (hrun opened (.expr l ctx) s hinv (hready.exprPart ht hl)).bind ?_
  rintro target s₁ ⟨hmoves₁, hlhs⟩
  refine (hrun opened (.expr r ctx) s₁ hmoves₁.invariant
    ((hready.exprPart ht hr).later ht hmoves₁ fun x hx => hapart x hx.symm)).bind ?_
  rintro value s₂ ⟨hmoves₂, hrhs⟩
  refine (expect_spec e target value r s₂).mono ?_
  rintro - s₃ ⟨hquiet, hcompatible⟩
  have hmoves₃ : Moves e.tree opened nowhere s₂ s₃ := hquiet.moves hmoves₂.invariant
  obtain ⟨hlexpr, -, hltype, hlfinished, -⟩ :=
    (hlhs.later ht hmoves₂ hapart).later ht hmoves₃ fun _ hx => hx.2
  obtain ⟨hrexpr, -, hrtype, hrfinished, -⟩ := hrhs.later ht hmoves₃ fun _ hx => hx.2
  refine ⟨?_, fun a => stmt_result ht hready.1 ?_ (fun hclean => ?_) fun _ => ?_⟩
  · exact ((hmoves₁.widen fun x hx => .of_child (Tree.child_of_part hl) hx).trans
      (hmoves₂.widen fun x hx => .of_child (Tree.child_of_part hr) hx)).trans hmoves₃.anywhere
  · rw [hchildren]
    simp only [List.mem_cons, List.not_mem_nil, or_false]
    rintro c (rfl | rfl)
    · exact ⟨hlfinished, .of_isExpr ht hlexpr⟩
    · exact ⟨hrfinished, .of_isExpr ht hrexpr⟩
  · exact .of_isStmt (.of_assign hk hltype hrtype (hcompatible hclean)) hready.1
  · intro introducer value hret
    simp [State.program, hk] at hret

theorem conditional_spec {c : NodeId} (ss : List NodeId)
    (hparts : (e.tree.kind n).parts = (Kind.isExpr, c) :: ss.map (Kind.isStmt, ·))
    (hcondition : (e.tree.kind n).condition = some c)
    (hinv : Invariant e.tree opened s) (hready : Job.Ready e.tree opened s (.stmt n ctx)) :
    Ends (do
      condition e run c ctx
      each run (ss.map fun n => .stmt n ctx)) s fun _ s' =>
      Moves e.tree opened (e.tree.Below n) s s' ∧
        ∀ a, Job.Result e.tree a s' (.stmt n ctx) := by
  have hchildren : e.tree.children n = c :: ss := by
    rw [Tree.children, ← Kind.parts_map_snd, hparts]
    simp [Function.comp_def]
  have hss : ss.Sublist (e.tree.children n) := by simp [hchildren]
  have hapart := Tree.children_pairwise ht n
  rw [hchildren, List.pairwise_cons] at hapart
  have hc : (Kind.isExpr, c) ∈ (e.tree.kind n).parts := by simp [hparts]
  rw [condition, bind_assoc]
  refine (hrun opened (.expr c ctx) s hinv (hready.exprPart ht hc)).bind ?_
  rintro ty s₁ ⟨hmoves₁, hresult⟩
  refine (expect_spec e .bool ty c s₁).bind ?_
  rintro - s₂ ⟨hquiet, hcompatible⟩
  have hmoves₂ : Moves e.tree opened nowhere s₁ s₂ := hquiet.moves hmoves₁.invariant
  have hmoves := hmoves₁.trans hmoves₂.anywhere
  refine (stmts_spec ht hrun hss hmoves.invariant fun b hb => ?_).mono ?_
  · exact (hready.stmtPart ht (by simp [hparts, hb])).later ht hmoves fun x hx =>
      hapart.1 b hb x hx.symm
  · rintro - s₃ ⟨hmoves₃, hstmts⟩
    have hrest : ∀ x, ¬ (e.tree.Below c x ∧ ∃ b ∈ ss, e.tree.Below b x) := by
      rintro x ⟨hx, b, hb, hx'⟩
      exact hapart.1 b hb x ⟨hx, hx'⟩
    obtain ⟨hexpr, -, htype, hfinished, -⟩ :=
      (hresult.later ht hmoves₂ fun _ hx => hx.2).later ht hmoves₃ hrest
    refine ⟨?_, fun a => stmt_result ht hready.1 ?_ (fun hclean => ?_) fun _ => ?_⟩
    · refine (hmoves.widen fun x hx => .of_child (Tree.child_of_part hc) hx).trans
        (hmoves₃.widen ?_)
      rintro x ⟨b, hb, hx⟩
      exact .of_child (hss.subset hb) hx
    · rw [hchildren]
      rintro b (_ | ⟨_, hb⟩)
      · exact ⟨hfinished, .of_isExpr ht hexpr⟩
      · exact hstmts b hb
    · exact .of_isStmt (.of_condition hcondition htype
        (hcompatible (hmoves₃.effect.clean hclean))) hready.1
    · intro introducer value hret
      have hret : e.tree.kind n = .ret introducer value := hret
      simp [hret, Kind.condition] at hcondition

theorem expr_stmt_spec {c : NodeId} (hk : e.tree.kind n = .expr c)
    (hinv : Invariant e.tree opened s) (hready : Job.Ready e.tree opened s (.stmt n ctx)) :
    Ends (each run [.expr c ctx]) s fun _ s' =>
      Moves e.tree opened (e.tree.Below n) s s' ∧
        ∀ a, Job.Result e.tree a s' (.stmt n ctx) := by
  have hc : (Kind.isExpr, c) ∈ (e.tree.kind n).parts := by simp [hk, Kind.parts]
  refine (each_single_spec ht hrun hinv (hready.exprPart ht hc)).mono ?_
  rintro - s' ⟨hmoves, a, hexpr, -, -, hfinished, -⟩
  refine ⟨hmoves.widen fun x hx => .of_child (Tree.child_of_part hc) hx, fun a =>
    stmt_result ht hready.1 ?_ (fun _ => .of_hasRule ?_) fun _ => ?_⟩
  · simp only [Tree.children, hk, Kind.children, List.mem_singleton, forall_eq]
    exact ⟨hfinished, .of_isExpr ht hexpr⟩
  · simp [State.program, hk, Kind.hasRule]
  · intro introducer value hret
    simp [State.program, hk] at hret

theorem decl_stmt_spec {b : NodeId} (hk : e.tree.kind n = .decl b)
    (hinv : Invariant e.tree opened s) (hready : Job.Ready e.tree opened s (.stmt n ctx)) :
    Ends (each run [.binding b ctx true]) s fun _ s' =>
      Moves e.tree opened (e.tree.Below n) s s' ∧
        ∀ a, Job.Result e.tree a s' (.stmt n ctx) := by
  obtain ⟨hn, hctx, hidle, -⟩ := hready
  have hb := ht.fits n (Kind.isBinding, b) (by simp [hk, Kind.parts])
  refine (each_single_spec ht hrun (j := .binding b ctx true) hinv
    ⟨hb, hctx, hidle.allNeed⟩).mono ?_
  rintro - s' ⟨hmoves, a, hchecked⟩
  refine ⟨hmoves.anywhere, fun a => stmt_result ht hn ?_ (fun _ => .of_hasRule ?_) fun _ => ?_⟩
  · simp only [Tree.children, hk, Kind.children, List.mem_singleton, forall_eq]
    exact ⟨.of_checked ht hb hmoves.invariant hchecked (hidle.not_opened b),
      .of_isBinding ht hb⟩
  · simp [State.program, hk, Kind.hasRule]
  · intro introducer value hret
    simp [State.program, hk] at hret

theorem stmt_spec (hinv : Invariant e.tree opened s)
    (hready : Job.Ready e.tree opened s (.stmt n ctx)) :
    Ends (stmt e run n ctx) s fun _ s' =>
      Moves e.tree opened (e.tree.Below n) s s' ∧
        ∀ a, Job.Result e.tree a s' (.stmt n ctx) := by
  rw [stmt]
  split
  · next hk => exact brace_spec ht hrun hk hinv hready
  · next introducer value hk =>
      cases value with
      | some v => exact ret_value_spec ht hrun hk hinv hready
      | none => exact bare_ret_spec ht hk hinv hready
  · next hk => exact expr_stmt_spec ht hrun hk hinv hready
  · next hk => exact assign_spec ht hrun hk hinv hready
  · next c body hk =>
      exact conditional_spec ht hrun [body] (by simp [hk, Kind.parts])
        (by simp [hk, Kind.condition]) hinv hready
  · next c yes _ no hk =>
      exact conditional_spec ht hrun (yes :: no.toList) (by simp [hk, Kind.parts])
        (by simp [hk, Kind.condition]) hinv hready
  · next hk => exact decl_stmt_spec ht hrun hk hinv hready
  · next hcond _ =>
      have hn := hready.1
      cases hk : e.tree.kind n with
      | cond introducer c yes elseIntroducer no => exact absurd hk (hcond _ _ _ _ _)
      | _ => simp_all [Kind.isStmt]

end Stmts

end LanguageService.Check
