import LanguageService.Proofs.Lexemes
import Mathlib.Data.List.Basic
import Mathlib.Data.List.Induction

/-!
Lines and columns of a text, by the characters before a place. A place between characters is found
again by its line and column, unless it is after the carriage return at the end of a line.
-/
namespace LanguageService.Text

theorem lineColumnFrom_append (p : LineColumn) (s t : List Char) :
    lineColumnFrom p (bytes s) (s ++ t) = s.foldl LineColumn.advance p := by
  induction s generalizing p with
  | nil =>
      cases t with
      | nil => rfl
      | cons c cs => exact if_neg (Nat.not_le.mpr c.utf8Size_pos)
  | cons c cs ih =>
      rw [List.cons_append, bytes, lineColumnFrom, if_pos (Nat.le_add_right _ _),
        Nat.add_sub_cancel_left, ih, List.foldl_cons]

theorem line_foldl (p : LineColumn) (s : List Char) :
    (s.foldl LineColumn.advance p).line = p.line + s.count '\n' := by
  induction s generalizing p with
  | nil => rfl
  | cons c cs ih =>
      rw [List.foldl_cons, ih, LineColumn.advance, List.count_cons]
      by_cases hc : c = '\n'
      · simp only [hc, if_pos, beq_self_eq_true]
        omega
      · simp [hc]

theorem line_append (s t : List Char) : (lineColumn (s ++ t) (bytes s)).line = s.count '\n' := by
  rw [lineColumn, lineColumnFrom_append, line_foldl]
  exact Nat.zero_add _

theorem prefix_of_bytes_le {s s' text : List Char} (h : s <+: text) (h' : s' <+: text)
    (hle : bytes s ≤ bytes s') : s <+: s' := by
  rcases List.prefix_or_prefix_of_prefix h h' with hs | ⟨d, rfl⟩
  · exact hs
  · cases d with
    | nil => simp
    | cons c cs =>
        have hpos := bytes_pos (List.cons_ne_nil c cs)
        rw [bytes_append] at hle
        omega

def fitting : Nat → List Char → List Char
  | _, [] => []
  | n, c :: cs => if c.utf8Size ≤ n then c :: fitting (n - c.utf8Size) cs else []

def between (start stop : Nat) (cs : List Char) : List Char :=
  (fitting stop cs).drop (fitting start cs).length

theorem lineColumnFrom_eq_foldl (p : LineColumn) (n : Nat) (cs : List Char) :
    lineColumnFrom p n cs = (fitting n cs).foldl LineColumn.advance p := by
  induction cs generalizing p n with
  | nil => rfl
  | cons c cs ih =>
      rw [lineColumnFrom, fitting]
      split
      · rw [ih, List.foldl_cons]
      · rfl

theorem fitting_isPrefix {m n : Nat} (h : m ≤ n) (cs : List Char) :
    fitting m cs <+: fitting n cs := by
  induction cs generalizing m n with
  | nil => exact List.prefix_rfl
  | cons c cs ih =>
      rw [fitting]
      split
      · next hm =>
          rw [fitting, if_pos (Nat.le_trans hm h)]
          exact List.cons_prefix_cons.mpr ⟨rfl, ih (Nat.sub_le_sub_right h _)⟩
      · exact List.nil_prefix

theorem lineColumn_of_le {start stop : Nat} (h : start ≤ stop) (cs : List Char) :
    lineColumn cs stop =
      (between start stop cs).foldl LineColumn.advance (lineColumn cs start) := by
  obtain ⟨d, hd⟩ := fitting_isPrefix h cs
  have hbetween : between start stop cs = d := by rw [between, ← hd, List.drop_left]
  rw [hbetween, lineColumn, lineColumn, lineColumnFrom_eq_foldl, lineColumnFrom_eq_foldl,
    ← List.foldl_append, hd]

def Complete (s : List Char) : Prop := ∀ c ∈ s.getLast?, c = '\n'

def Resumes (s : List Char) : Prop := ∀ c ∈ s.head?, c = '\n'

variable {cs before line after s t : List Char}

theorem foldl_of_notMem (h : '\n' ∉ s) (p : LineColumn) :
    s.foldl LineColumn.advance p = ⟨p.line, p.column + units s⟩ := by
  induction s generalizing p with
  | nil => rfl
  | cons c cs ih =>
      rw [List.mem_cons, not_or] at h
      rw [List.foldl_cons, ih h.2, LineColumn.advance, if_neg (Ne.symm h.1), units, Nat.add_assoc]

theorem lineColumn_le {start stop : Nat} (h : start ≤ stop) (cs : List Char) :
    (lineColumn cs start).line ≤ (lineColumn cs stop).line ∧
      ((lineColumn cs start).line = (lineColumn cs stop).line →
        (lineColumn cs stop).column =
          (lineColumn cs start).column + units (between start stop cs)) := by
  have hline : (lineColumn cs stop).line =
      (lineColumn cs start).line + (between start stop cs).count '\n' := by
    rw [lineColumn_of_le h, line_foldl]
  refine ⟨hline ▸ Nat.le_add_right _ _, fun hsame => ?_⟩
  have hunbroken : '\n' ∉ between start stop cs := List.count_eq_zero.mp (by omega)
  rw [lineColumn_of_le h, foldl_of_notMem hunbroken]

theorem charUnits_le_utf8Size (c : Char) : charUnits c ≤ c.utf8Size := by
  rw [charUnits]
  split
  · exact c.utf8Size_pos
  · next hlarge =>
      simp only [Char.utf8Size, UInt32.le_iff_toNat_le, UInt32.lt_iff_toNat_lt] at hlarge ⊢
      grind

theorem line_add_column_le (cs : List Char) (o : Nat) :
    (lineColumn cs o).line + (lineColumn cs o).column ≤ bytes cs := by
  have hfrom (p : LineColumn) (n : Nat) :
      (lineColumnFrom p n cs).line + (lineColumnFrom p n cs).column ≤
        p.line + p.column + bytes cs := by
    induction cs generalizing p n with
    | nil => exact Nat.le_refl _
    | cons c cs ih =>
        rw [lineColumnFrom, bytes]
        have hsize := charUnits_le_utf8Size c
        have hpos := c.utf8Size_pos
        split
        · have hrest := ih (p.advance c) (n - c.utf8Size)
          have hadvance : (p.advance c).line + (p.advance c).column ≤
              p.line + p.column + c.utf8Size := by
            rw [LineColumn.advance]
            split
            · dsimp only
              omega
            · dsimp only
              omega
          omega
        · omega
  simpa [lineColumn, LineColumn.origin] using hfrom .origin o

theorem foldl_of_complete (h : Complete s) :
    s.foldl LineColumn.advance .origin = ⟨s.count '\n', 0⟩ := by
  rcases List.eq_nil_or_concat' s with rfl | ⟨s, c, rfl⟩
  · rfl
  · obtain rfl : c = '\n' := h c (by simp)
    rw [List.foldl_concat, LineColumn.advance, if_pos rfl, line_foldl, List.count_append]
    simp [LineColumn.origin]

theorem lineColumn_of_line (hbefore : Complete before) (hs : '\n' ∉ s) (t : List Char) :
    lineColumn (before ++ (s ++ t)) (bytes (before ++ s)) = ⟨before.count '\n', units s⟩ := by
  rw [← List.append_assoc, lineColumn, lineColumnFrom_append, List.foldl_append,
    foldl_of_complete hbefore, foldl_of_notMem hs, Nat.zero_add]

theorem Complete.tail {c : Char} (h : Complete (c :: s)) : Complete s := by
  cases s with
  | nil => simp [Complete]
  | cons d ds => exact fun x hx => h x (by rwa [List.getLast?_cons_cons])

theorem Complete.count_pos {c : Char} (h : Complete (c :: s)) (hc : c ≠ '\n') :
    0 < s.count '\n' := by
  cases s with
  | nil => exact absurd (h c rfl) hc
  | cons d ds =>
      have hget := List.getLast?_eq_some_getLast (List.cons_ne_nil d ds)
      rw [List.count_pos_iff, ← h.tail _ hget]
      exact List.getLast_mem _

theorem skipLines_append (h : Complete before) (start : Nat) (rest : List Char) :
    skipLines (before.count '\n') start (before ++ rest) = some (start + bytes before, rest) := by
  induction before generalizing start with
  | nil => simp [skipLines, bytes]
  | cons c cs ih =>
      by_cases hc : c = '\n'
      · rw [hc, List.count_cons_self, List.cons_append, skipLines, if_pos rfl, ih h.tail, bytes,
          Nat.add_assoc]
      · obtain ⟨n, hn⟩ := Nat.exists_eq_add_one.mpr (h.count_pos hc)
        rw [List.count_cons_of_ne hc, hn, List.cons_append, skipLines, if_neg hc, ← hn, ih h.tail,
          bytes, Nat.add_assoc]

theorem takeWhile_line (hline : '\n' ∉ line) (hafter : Resumes after) :
    (line ++ after).takeWhile (· ≠ '\n') = line := by
  have hnone : after.takeWhile (· ≠ '\n') = [] := by
    cases after with
    | nil => rfl
    | cons c cs => simp [hafter c rfl]
  rw [List.takeWhile_append_of_pos, hnone, List.append_nil]
  rintro c hc
  simpa using fun heq : c = '\n' => hline (heq ▸ hc)

theorem offset_of_line (hbefore : Complete before) (hline : '\n' ∉ line) (hafter : Resumes after)
    (k : Nat) : offset (before ++ (line ++ after)) ⟨before.count '\n', k⟩ =
      some (bytes before + columnBytes k (dropReturn line)) := by
  rw [offset, skipLines_append hbefore, Option.map_some, Nat.zero_add]
  dsimp only
  rw [takeWhile_line hline hafter]

theorem dropReturn_concat (s : List Char) : dropReturn (s ++ ['\r']) = s := by
  rw [dropReturn, if_pos (by simp), List.dropLast_concat]

theorem dropReturn_append (s : List Char) (ht : t ≠ []) :
    dropReturn (s ++ t) = s ++ dropReturn t := by
  rw [dropReturn, dropReturn, List.getLast?_append_of_ne_nil s ht]
  split
  · exact List.dropLast_append_of_ne_nil ht
  · rfl

theorem columnBytes_append (s t : List Char) (k : Nat) :
    columnBytes (units s + k) (s ++ t) = bytes s + columnBytes k t := by
  induction s with
  | nil => simp [units, bytes]
  | cons c cs ih =>
      obtain ⟨n, hn⟩ := Nat.exists_eq_add_one.mpr (charUnits_pos c)
      have hsucc : units (c :: cs) + k = n + (units cs + k) + 1 := by
        rw [units]
        omega
      have hrest : n + (units cs + k) + 1 - charUnits c = units cs + k := by omega
      rw [hsucc, List.cons_append, columnBytes, hrest, ih, bytes, Nat.add_assoc]

theorem columnBytes_of_units_le {k : Nat} (h : units s ≤ k) : columnBytes k s = bytes s := by
  obtain ⟨d, rfl⟩ := Nat.exists_eq_add_of_le h
  have happend := columnBytes_append s [] d
  cases d with
  | zero => simpa [columnBytes] using happend
  | succ d => simpa [columnBytes] using happend

theorem exists_columnBytes (k : Nat) (line : List Char) :
    ∃ s t, line = s ++ t ∧ columnBytes k line = bytes s := by
  induction line generalizing k with
  | nil => exact ⟨[], [], rfl, by cases k <;> rfl⟩
  | cons c cs ih =>
      cases k with
      | zero => exact ⟨[], c :: cs, rfl, rfl⟩
      | succ k =>
          obtain ⟨s, t, rfl, hbytes⟩ := ih (k + 1 - charUnits c)
          exact ⟨c :: s, t, rfl, by rw [columnBytes, hbytes, bytes]⟩

/-- A line of a text: what stands before it, what it contains, how it ends and what follows. A
carriage return counts with the end of a line if it is before a line feed or ends the text. -/
structure LineAt (cs : List Char) (n : Nat) (before content ending after : List Char) : Prop where
  text : cs = before ++ (content ++ (ending ++ after))
  complete : Complete before
  number : before.count '\n' = n
  unbroken : '\n' ∉ content
  ends : ending = ['\n'] ∨ ending = ['\r', '\n'] ∨ after = [] ∧ (ending = [] ∨ ending = ['\r'])
  returned : '\r' ∉ ending → content.getLast? ≠ some '\r'

theorem exists_line (pre : List Char) :
    ∃ before s, pre = before ++ s ∧ Complete before ∧ '\n' ∉ s := by
  induction pre using List.reverseRecOn with
  | nil => exact ⟨[], [], rfl, by simp [Complete], by simp⟩
  | append_singleton pre c ih =>
      by_cases hc : c = '\n'
      · exact ⟨pre ++ [c], [], by simp, by simp [Complete, hc], by simp⟩
      · obtain ⟨before, s, rfl, hbefore, hs⟩ := ih
        exact ⟨before, s ++ [c], by simp, hbefore, by simp [hs, Ne.symm hc]⟩

theorem exists_complete {n : Nat} (h : n ≤ cs.count '\n') :
    ∃ before rest, cs = before ++ rest ∧ Complete before ∧ before.count '\n' = n := by
  induction n generalizing cs with
  | zero => exact ⟨[], cs, rfl, by simp [Complete], rfl⟩
  | succ n ih =>
      obtain ⟨l, r, rfl, hl⟩ := List.eq_append_cons_of_mem
        (List.count_pos_iff.mp (Nat.lt_of_lt_of_le (Nat.succ_pos n) h))
      have hcount : l.count '\n' = 0 := List.count_eq_zero.mpr hl
      rw [List.count_append, hcount, List.count_cons_self, Nat.zero_add] at h
      obtain ⟨before, rest, rfl, hbefore, rfl⟩ := ih (Nat.le_of_succ_le_succ h)
      refine ⟨l ++ '\n' :: before, rest, by simp, ?_, by simp [hcount]⟩
      cases before with
      | nil => simp [Complete]
      | cons c cs =>
          intro x hx
          exact hbefore x (by simpa using hx)

theorem exists_resumes (rest : List Char) :
    ∃ line after, rest = line ++ after ∧ '\n' ∉ line ∧ Resumes after := by
  refine ⟨rest.takeWhile (· ≠ '\n'), rest.dropWhile (· ≠ '\n'),
    (List.takeWhile_append_dropWhile).symm, fun hmem => ?_, fun c hc => ?_⟩
  · simpa using List.mem_takeWhile_imp hmem
  · have hhead := List.head?_dropWhile_not (· ≠ '\n') rest
    rw [Option.mem_def.mp hc] at hhead
    simpa using hhead

theorem exists_lineAt {n : Nat} (h : n < lineCount cs) :
    ∃ before content ending after, LineAt cs n before content ending after := by
  obtain ⟨before, rest, rfl, hbefore, rfl⟩ := exists_complete (Nat.le_of_lt_succ h)
  obtain ⟨line, after, rfl, hline, hafter⟩ := exists_resumes rest
  -- The line is taken apart by whether it ends in a carriage return and whether a feed follows.
  by_cases hreturn : line.getLast? = some '\r'
  · obtain ⟨content, rfl⟩ := List.getLast?_eq_some_iff.mp hreturn
    have hcontent : '\n' ∉ content := fun hmem => hline (List.mem_append_left _ hmem)
    cases after with
    | nil =>
        exact ⟨before, content, ['\r'], [], by simp, hbefore, rfl, hcontent, by simp, by simp⟩
    | cons c after =>
        obtain rfl := hafter c rfl
        exact ⟨before, content, ['\r', '\n'], after, by simp, hbefore, rfl, hcontent, by simp,
          by simp⟩
  · cases after with
    | nil => exact ⟨before, line, [], [], by simp, hbefore, rfl, hline, by simp, fun _ => hreturn⟩
    | cons c after =>
        obtain rfl := hafter c rfl
        exact ⟨before, line, ['\n'], after, by simp, hbefore, rfl, hline, by simp,
          fun _ => hreturn⟩

namespace LineAt

variable {n : Nat} {content ending : List Char}

theorem lineColumn (h : LineAt cs n before content ending after) (hs : content = s ++ t) :
    lineColumn cs (bytes (before ++ s)) = ⟨n, units s⟩ := by
  have hunbroken : '\n' ∉ s := fun hmem => h.unbroken (hs ▸ List.mem_append_left t hmem)
  rw [h.text, hs, List.append_assoc s, lineColumn_of_line h.complete hunbroken, h.number]

theorem offset (h : LineAt cs n before content ending after) (k : Nat) :
    offset cs ⟨n, k⟩ = some (bytes before + columnBytes k content) := by
  have hfeed : Resumes ('\n' :: after) := by simp [Resumes]
  have hplain (hending : '\r' ∉ ending) : dropReturn content = content :=
    if_neg (h.returned hending)
  have hreturned : '\n' ∉ content ++ ['\r'] := by simp [h.unbroken]
  rw [h.text, ← h.number]
  rcases h.ends with rfl | rfl | ⟨rfl, rfl | rfl⟩
  · rw [List.singleton_append, offset_of_line h.complete h.unbroken hfeed, hplain (by simp)]
  · have hassoc : content ++ (['\r', '\n'] ++ after) = content ++ ['\r'] ++ '\n' :: after := by simp
    rw [hassoc, offset_of_line h.complete hreturned hfeed, dropReturn_concat]
  · rw [List.nil_append, offset_of_line h.complete h.unbroken (by simp [Resumes]), hplain (by simp)]
  · have hassoc : content ++ (['\r'] ++ []) = content ++ ['\r'] ++ [] := by simp
    rw [hassoc, offset_of_line h.complete hreturned (by simp [Resumes]), dropReturn_concat]

end LineAt

theorem columnBytes_dropReturn (s t : List Char) :
    columnBytes (units s) (dropReturn (s ++ t)) =
      if s.getLast? = some '\r' ∧ t = [] then bytes s - 1 else bytes s := by
  cases t with
  | nil =>
      rw [List.append_nil]
      by_cases hreturn : s.getLast? = some '\r'
      · obtain ⟨s, rfl⟩ := List.getLast?_eq_some_iff.mp hreturn
        rw [dropReturn_concat, if_pos ⟨hreturn, rfl⟩, columnBytes_of_units_le (by simp),
          bytes_append]
        rfl
      · rw [dropReturn, if_neg hreturn, if_neg (fun hboth => hreturn hboth.1),
          columnBytes_of_units_le (Nat.le_refl _)]
  | cons c cs =>
      rw [dropReturn_append s (List.cons_ne_nil c cs), if_neg (by simp)]
      simpa [columnBytes] using columnBytes_append s (dropReturn (c :: cs)) 0

/-- An offset between characters is found again by its line and column, unless it is after a
carriage return that ends a line or the text, and then the offset before that is found. A position
in a line has an offset between characters of the line's content, and this is in that line. -/
theorem offset_lineColumn (cs : List Char) :
    (∀ pre post, cs = pre ++ post → offset cs (lineColumn cs (bytes pre)) =
      some (if pre.getLast? = some '\r' ∧ (post = [] ∨ post.head? = some '\n')
        then bytes pre - 1 else bytes pre)) ∧
    ∀ p : LineColumn, p.line < lineCount cs → ∃ before content ending after s t,
      LineAt cs p.line before content ending after ∧ content = s ++ t ∧
        offset cs p = some (bytes (before ++ s)) ∧
        lineColumn cs (bytes (before ++ s)) = ⟨p.line, units s⟩ := by
  refine ⟨?_, fun p hp => ?_⟩
  · rintro pre post rfl
    obtain ⟨before, s, rfl, hbefore, hs⟩ := exists_line pre
    obtain ⟨t, after, rfl, ht, hafter⟩ := exists_resumes post
    have hline : '\n' ∉ s ++ t := by simp [hs, ht]
    have hlast : (before ++ s).getLast? = some '\r' ↔ s.getLast? = some '\r' := by
      rcases List.eq_nil_or_concat' s with rfl | ⟨s, c, rfl⟩
      · have hnone : before.getLast? ≠ some '\r' := fun h => absurd (hbefore _ h) (by decide)
        simp [hnone]
      · rw [← List.append_assoc, List.getLast?_concat, List.getLast?_concat]
    have hend : t ++ after = [] ∨ (t ++ after).head? = some '\n' ↔ t = [] := by
      cases t with
      | nil =>
          cases after with
          | nil => simp
          | cons c cs => simp [hafter c rfl]
      | cons c cs =>
          have hc : c ≠ '\n' := fun heq => ht (heq ▸ List.mem_cons_self)
          simp [hc]
    rw [List.append_assoc, lineColumn_of_line hbefore hs, ← List.append_assoc s,
      offset_of_line hbefore hline hafter, columnBytes_dropReturn, bytes_append]
    simp only [hlast, hend]
    split
    · next hreturn =>
        have hpos : 0 < bytes s := bytes_pos fun hnil => by simp [hnil] at hreturn
        rw [Nat.add_sub_assoc hpos]
    · rfl
  · obtain ⟨before, content, ending, after, h⟩ := exists_lineAt hp
    obtain ⟨s, t, hs, hbytes⟩ := exists_columnBytes p.column content
    refine ⟨before, content, ending, after, s, t, h, hs, ?_, h.lineColumn hs⟩
    rw [h.offset p.column, hbytes, bytes_append]

/-- A text with a character of two units, a carriage return before a line feed and one at the
end. -/
def clefLines : List Char := "é\r\n𝄞x\r".toList

theorem offset_lineColumn_clefLines :
    offset clefLines (lineColumn clefLines 3) = some 2 ∧
      offset clefLines (lineColumn clefLines 8) = some 8 ∧
      1 < lineCount clefLines ∧ ∃ before content ending after s t,
        LineAt clefLines 1 before content ending after ∧ content = s ++ t ∧
          offset clefLines ⟨1, 1⟩ = some (bytes (before ++ s)) ∧
          lineColumn clefLines (bytes (before ++ s)) = ⟨1, units s⟩ := by
  obtain ⟨hplaces, hpositions⟩ := offset_lineColumn clefLines
  refine ⟨?_, ?_, by decide, hpositions ⟨1, 1⟩ (by decide)⟩
  · exact (hplaces "é\r".toList "\n𝄞x\r".toList (by decide)).trans (by decide)
  · exact (hplaces "é\r\n𝄞".toList "x\r".toList (by decide)).trans (by decide)

end LanguageService.Text
