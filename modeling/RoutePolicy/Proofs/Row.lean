import RoutePolicy.Proofs.RunningConfig

/-!
# Rows of a text

A row is what stands between two line feeds, a carriage return at its end included.  Rows are easier
to reason about than lines: a text is its rows put under each other, whatever its line ends are, and
two texts put under each other have the rows of the one and then those of the other.  Policies can
be read from the rows as well as from the lines.

* `Line.ofText_eq_recut`   the lines of a text, from its rows;
* `Line.rows_append`       the rows of two texts put under each other;
* `policyNames_eq_rows`    the headers of a text are those among its rows;
* `bodyLines_eq_rows`      the body of a policy is read off the rows.
-/

namespace RoutePolicy

/-! ## Rows and lines -/

theorem Text.unlines_eq_intercalate (ls : List (List Char)) :
    unlines ls = ['\n'].intercalate ls := by
  fun_induction unlines ls with
  | case1 => rfl
  | case2 l => simp
  | case3 l ls hne ih =>
    obtain ⟨next, rest, rfl⟩ := List.exists_cons_of_ne_nil hne
    rw [ih, List.intercalate_cons_cons, List.append_assoc, List.singleton_append]

theorem Text.newline_not_mem_splitOn {cs row : List Char} (h : row ∈ cs.splitOn '\n') :
    '\n' ∉ row := by
  induction cs generalizing row with
  | nil =>
    rw [List.mem_singleton.mp h]
    exact List.not_mem_nil
  | cons c cs ih =>
    obtain ⟨first, rest, hsplit⟩ := List.exists_cons_of_ne_nil (List.splitOn_ne_nil '\n' cs)
    rw [List.splitOn_cons_eq_if_modifyHead, hsplit] at h
    rw [hsplit] at ih
    split at h
    · rcases List.mem_cons.mp h with rfl | h
      · exact List.not_mem_nil
      · exact ih h
    · rename_i hc
      rcases List.mem_cons.mp h with rfl | h
      · have hne : '\n' ≠ c := fun heq => hc (beq_iff_eq.mpr heq.symm)
        exact List.not_mem_cons_of_ne_of_not_mem hne (ih List.mem_cons_self)
      · exact ih (List.mem_cons_of_mem _ h)

namespace Line

/-- What stands between the line feeds of a text. -/
def rows (text : String) : List String :=
  (text.toList.splitOn '\n').map String.ofList

theorem rows_append (first second : String) :
    rows (first ++ "\n" ++ second) = rows first ++ rows second := by
  have hchars : (first ++ "\n" ++ second).toList = first.toList ++ '\n' :: second.toList := by simp
  rw [rows, hchars, List.splitOn_append_cons_self, List.map_append, rows, rows]

theorem join_rows (text : String) : join (rows text) = text := by
  have hchars : (rows text).map String.toList = text.toList.splitOn '\n' := by
    simp [rows, Function.comp_def]
  rw [join, hchars, Text.unlines_eq_intercalate, List.intercalate_splitOn, String.ofList_toList]

theorem ofText_eq_recut (text : String) : ofText text = recut (rows text) := by
  have hrows : ∀ row ∈ rows text, '\n' ∉ row.toList := by
    intro row hrow
    obtain ⟨cs, hcs, rfl⟩ := List.mem_map.mp hrow
    rw [String.toList_ofList]
    exact Text.newline_not_mem_splitOn hcs
  rw [← ofText_join hrows, join_rows]

end Line

/-! ## Policies in rows -/

theorem policyNames_eq_rows (text : String) :
    policyNames text = (Line.rows text).filterMap headerName? := by
  rw [policyNames, Line.ofText_eq_recut, filterMap_headerName?_recut]

theorem bodyLines_eq_rows (name text : String) :
    bodyLines name text = bodyFrom name (policyNames text).isEmpty (Line.rows text) := by
  have hflag : ((Line.ofText text).all fun line => (headerName? line).isNone)
      = (policyNames text).isEmpty := by
    rw [Bool.eq_iff_iff, List.all_eq_true, List.isEmpty_iff, policyNames, List.filterMap_eq_nil_iff]
    simp only [Option.isNone_iff_eq_none]
  rw [bodyLines, hflag, Line.ofText_eq_recut, bodyFrom_recut]

end RoutePolicy
