import Mathlib.Tactic

/-!
# Circular buffers

A list of cells that is read and written from any position on, past the end back to the beginning.
No operation makes more than one turn, so positions are computed by one conditional subtraction.
Position zero is a position even where there is no cell, so the bound on positions is `max size 1`.

* `read_write_self`: what was written is read back.
* `read_write_of_disjoint`: writing behind what is read leaves it as it was.
* `read_add`, `write_append`: reading and writing in two parts.
-/

namespace Circular

/-- The cell at an offset behind a position. -/
def cell (size position offset : ℕ) : ℕ :=
  if position + offset < size then position + offset else position + offset - size

/-- How far a position is behind another one. -/
def distance (size start stop : ℕ) : ℕ :=
  if start ≤ stop then stop - start else size - start + stop

section Positions

variable {size position first second : ℕ}

theorem cell_zero (h : position < max size 1) : cell size position 0 = position := by
  unfold cell
  split <;> omega

theorem cell_lt (hposition : position < max size 1) (hfirst : first ≤ size) :
    cell size position first < max size 1 := by
  unfold cell
  split <;> omega

theorem cell_cell (hposition : position < max size 1) (hle : first + second ≤ size) :
    cell size (cell size position first) second = cell size position (first + second) := by
  unfold cell
  split <;> split <;> split <;> omega

theorem distance_cell (hposition : position < size) (hfirst : first < size) :
    distance size position (cell size position first) = first := by
  unfold distance cell
  split <;> split <;> omega

theorem cell_distance (hposition : position < size) (hfirst : first < size) :
    cell size position (distance size position first) = first := by
  unfold distance cell
  split <;> split <;> omega

theorem distance_lt (hposition : position < size) (hfirst : first < size) :
    distance size position first < size := by
  unfold distance
  split <;> omega

theorem distance_self : distance size position position = 0 := by
  rw [distance, if_pos le_rfl, Nat.sub_self]

end Positions

variable {α : Type*}

/-- Values in the place of as many cells. -/
def blit (cells : List α) (start : ℕ) (values : List α) : List α :=
  cells.take start ++ (values ++ cells.drop (start + values.length))

/-- Some cells from a position on. -/
def read (cells : List α) (start count : ℕ) : List α :=
  (cells.drop start).take count ++ cells.take (count - (cells.length - start))

/-- The cells with some values from a position on. -/
def write (cells : List α) (start : ℕ) (values : List α) : List α :=
  let first := min values.length (cells.length - start)
  blit (blit cells start (values.take first)) 0 (values.drop first)

section Cells

variable {cells values : List α} {start count : ℕ}

theorem length_blit (h : start + values.length ≤ cells.length) :
    (blit cells start values).length = cells.length := by
  simp only [blit, List.length_append, List.length_take, List.length_drop]
  omega

theorem getElem?_blit (h : start + values.length ≤ cells.length) (index : ℕ) :
    (blit cells start values)[index]? =
      if start ≤ index ∧ index < start + values.length then values[index - start]?
      else cells[index]? := by
  have htake : (cells.take start).length = start := by
    rw [List.length_take]
    omega
  unfold blit
  by_cases hbefore : index < start
  · rw [List.getElem?_append_left (by omega), List.getElem?_take_of_lt hbefore, if_neg (by omega)]
  rw [List.getElem?_append_right (by omega), htake]
  by_cases hin : index < start + values.length
  · rw [List.getElem?_append_left (by omega), if_pos ⟨by omega, hin⟩]
  · rw [List.getElem?_append_right (by omega), List.getElem?_drop, if_neg (by omega)]
    congr 1
    omega

@[simp]
theorem length_write (hstart : start ≤ cells.length) (hlength : values.length ≤ cells.length) :
    (write cells start values).length = cells.length := by
  have hfirst : (blit cells start
      (values.take (min values.length (cells.length - start)))).length = cells.length := by
    rw [length_blit]
    rw [List.length_take]
    omega
  rw [write, length_blit, hfirst]
  rw [hfirst, List.length_drop]
  omega

theorem getElem?_write (hstart : start ≤ cells.length) (hlength : values.length ≤ cells.length)
    {index : ℕ} (hindex : index < cells.length) :
    (write cells start values)[index]? =
      if distance cells.length start index < values.length then
        values[distance cells.length start index]?
      else cells[index]? := by
  have hfirst : (blit cells start
      (values.take (min values.length (cells.length - start)))).length = cells.length := by
    rw [length_blit]
    rw [List.length_take]
    omega
  unfold write
  rw [getElem?_blit (by rw [hfirst, List.length_drop]; omega),
    getElem?_blit (by rw [List.length_take]; omega)]
  simp only [List.length_drop, List.length_take, List.getElem?_drop, List.getElem?_take,
    Nat.zero_add, Nat.zero_le, true_and, Nat.sub_zero]
  by_cases hle : start ≤ index
  · have hdistance : distance cells.length start index = index - start := if_pos hle
    rw [hdistance, if_neg (by omega)]
    by_cases hin : index - start < values.length
    · rw [if_pos (by omega), if_pos (by omega), if_pos hin]
    · rw [if_neg (by omega), if_neg hin]
  · have hdistance : distance cells.length start index = cells.length - start + index := if_neg hle
    rw [hdistance]
    by_cases hin : cells.length - start + index < values.length
    · rw [if_pos (by omega), if_pos hin]
      congr 1
      omega
    · rw [if_neg (by omega), if_neg (by omega), if_neg hin]

theorem length_read (hstart : start ≤ cells.length) (hcount : count ≤ cells.length) :
    (read cells start count).length = count := by
  simp only [read, List.length_append, List.length_take, List.length_drop]
  omega

@[simp]
theorem read_zero (cells : List α) (start : ℕ) : read cells start 0 = [] := by
  simp [read]

@[simp]
theorem write_nil (cells : List α) (start : ℕ) : write cells start [] = cells := by
  simp [write, blit]

theorem getElem?_read (hstart : start < cells.length) {index : ℕ}
    (hindex : index < count) : (read cells start count)[index]? =
      cells[cell cells.length start index]? := by
  unfold read cell
  by_cases hin : start + index < cells.length
  · rw [if_pos hin, List.getElem?_append_left, List.getElem?_take_of_lt hindex, List.getElem?_drop]
    rw [List.length_take, List.length_drop]
    omega
  · rw [if_neg hin, List.getElem?_append_right, List.getElem?_take_of_lt]
    · rw [List.length_take, List.length_drop]
      congr 1
      omega
    · rw [List.length_take, List.length_drop]
      omega
    · rw [List.length_take, List.length_drop]
      omega

/-- What was written is read back. -/
theorem read_write_self (hstart : start < max cells.length 1) (hlength : values.length ≤ cells.length) :
    read (write cells start values) start values.length = values := by
  have hle : start ≤ cells.length := by omega
  have hsize := length_write hle hlength
  refine List.ext_getElem? fun index => ?_
  by_cases hindex : index < values.length
  · have hcell := cell_lt hstart (show index ≤ cells.length by omega)
    rw [getElem?_read (by omega) hindex, hsize, getElem?_write hle hlength (by omega),
      distance_cell (by omega) (by omega), if_pos hindex]
  · rw [List.getElem?_eq_none (by rw [length_read (by omega) (by omega)]; omega),
      List.getElem?_eq_none (by omega)]

/-- Values that are written behind what is read, at most one turn, are not read. -/
theorem read_write_of_disjoint {target between : ℕ} (hstart : start < max cells.length 1)
    (hturn : count + between + values.length ≤ cells.length)
    (htarget : target = cell cells.length start (count + between)) :
    read (write cells target values) start count = read cells start count := by
  have hlt : target < max cells.length 1 := by
    rw [htarget]
    exact cell_lt hstart (by omega)
  have htargetLe : target ≤ cells.length := by omega
  have hsize := length_write htargetLe (show values.length ≤ cells.length by omega)
  refine List.ext_getElem? fun index => ?_
  by_cases hindex : index < count
  · have hcell := cell_lt hstart (show index ≤ cells.length by omega)
    rw [getElem?_read (by omega) hindex, getElem?_read (by omega) hindex, hsize,
      getElem?_write htargetLe (by omega) (by omega), if_neg]
    -- The cell is behind everything that is written.
    rw [htarget]
    unfold distance cell
    split <;> split <;> split <;> omega
  · rw [List.getElem?_eq_none (by rw [length_read (by omega) (by omega)]; omega),
      List.getElem?_eq_none (by rw [length_read (by omega) (by omega)]; omega)]

theorem read_add {first second : ℕ} (hstart : start < max cells.length 1)
    (hle : first + second ≤ cells.length) :
    read cells start (first + second) =
      read cells start first ++ read cells (cell cells.length start first) second := by
  have hcell := cell_lt hstart (show first ≤ cells.length by omega)
  have hfirst : (read cells start first).length = first := length_read (by omega) (by omega)
  refine List.ext_getElem? fun index => ?_
  by_cases hindex : index < first
  · rw [List.getElem?_append_left (by omega), getElem?_read (by omega) (by omega),
      getElem?_read (by omega) hindex]
  by_cases hlast : index < first + second
  · rw [List.getElem?_append_right (by omega), hfirst, getElem?_read (by omega) hlast,
      getElem?_read (by omega) (by omega), cell_cell hstart (by omega),
      Nat.add_sub_cancel' (by omega)]
  · rw [List.getElem?_eq_none (by rw [length_read (by omega) hle]; omega),
      List.getElem?_eq_none (by
        rw [List.length_append, hfirst, length_read (by omega) (by omega)]
        omega)]

theorem write_append {more : List α} (hstart : start < max cells.length 1)
    (hle : values.length + more.length ≤ cells.length) :
    write (write cells start values) (cell cells.length start values.length) more =
      write cells start (values ++ more) := by
  have hcell := cell_lt hstart (show values.length ≤ cells.length by omega)
  have hstartLe : start ≤ cells.length := by omega
  have hsize := length_write hstartLe (show values.length ≤ cells.length by omega)
  have hboth : (values ++ more).length ≤ cells.length := by rwa [List.length_append]
  refine List.ext_getElem? fun index => ?_
  by_cases hindex : index < cells.length
  · have hvalues := getElem?_write hstartLe (show values.length ≤ cells.length by omega) hindex
    have hmore := @getElem?_write α (write cells start values) more
      (cell cells.length start values.length) (by omega) (by omega) index (by omega)
    rw [hsize, hvalues] at hmore
    rw [hmore, getElem?_write hstartLe hboth hindex, List.length_append]
    -- The distance from the second start is shorter, or it is a turn.
    have hshift : distance cells.length (cell cells.length start values.length) index =
        if values.length ≤ distance cells.length start index then
          distance cells.length start index - values.length
        else cells.length + distance cells.length start index - values.length := by
      unfold distance cell
      split <;> split <;> split <;> split <;> omega
    rw [hshift]
    have hlt := distance_lt (show start < cells.length by omega) hindex
    generalize distance cells.length start index = offset at *
    by_cases hoffset : offset < values.length
    · rw [if_neg (show ¬ values.length ≤ offset by omega), if_neg (by omega), if_pos hoffset,
        if_pos (by omega), List.getElem?_append_left hoffset]
    · rw [if_pos (show values.length ≤ offset by omega)]
      by_cases hin : offset - values.length < more.length
      · rw [if_pos hin, if_pos (by omega), List.getElem?_append_right (by omega)]
      · rw [if_neg hin, if_neg hoffset, if_neg (by omega)]
  · rw [List.getElem?_eq_none (by rw [length_write (by omega) (by omega)]; omega),
      List.getElem?_eq_none (by rw [length_write hstartLe hboth]; omega)]

end Cells

end Circular
