import TinyLisp.Value.Printer

/-!
# Printing along a path

What the printer writes for a value depends on the draft only through the cells that are open, and
these are the cells on the path from the value printed to the value at hand. So the printed form can
be had without a draft: `Value.renderOnto cells path v rest` puts the printed form of `v` in front
of `rest`, where `path` holds the cells whose contents are being printed. Proofs about printed forms
go by this function, which hands nothing from one item of a list to the next.

* `write_text`: what is written onto a draft, in front of any text.
* `render_eq`: the printed form of a value is the one along the empty path.
-/

namespace TinyLisp

namespace Draft

theorem text_put (d : Draft) (t : Text) : (d.put t).text = d.text ++ t := by
  simp [put, text]

theorem text_openCell (d : Draft) (c : CellId) : (d.openCell c).text = d.text := rfl

theorem text_closeCell (d : Draft) (c : CellId) : (d.closeCell c).text = d.text := rfl

end Draft

namespace Value

open Draft

mutual

/-- Puts the printed form of `v` in front of `rest`. -/
def renderOnto (cells : Array Value) (path : List CellId) (v : Value) (rest : Text) : Text :=
  match v with
  | .scalar _ s => s.render ++ rest
  | .list _ items => 40 :: renderItemsOnto cells path items (41 :: rest)
  | .closure .. => "<function>" ++ rest
  | .builtin b => "<builtin:" ++ b.name ++ ">" ++ rest
  | .atom c =>
    if hp : path.contains c then "(atom ...)" ++ rest
    else if hc : c < cells.size then
      have := unopened_cons_lt hc hp
      "(atom " ++ renderOnto cells (c :: path) cells[c] (41 :: rest)
    else "(atom)" ++ rest
  | .invalid u => u.render ++ rest
termination_by (unopened cells.size path, sizeOf v)

/-- Puts the printed forms of `vs`, separated by spaces, in front of `rest`. -/
def renderItemsOnto (cells : Array Value) (path : List CellId) (vs : List Value) (rest : Text) :
    Text :=
  match vs with
  | [] => rest
  | [v] => renderOnto cells path v rest
  | v :: w :: ws => renderOnto cells path v (32 :: renderItemsOnto cells path (w :: ws) rest)
termination_by (unopened cells.size path, sizeOf vs)

end

mutual

/-- **What is written onto a draft is the printed form along the cells that are open.** -/
theorem write_text (cells : Array Value) (path : List CellId) (v : Value) (d : Draft)
    (hd : d.opened = path) (rest : Text) :
    (write cells v d).1.text ++ rest = d.text ++ renderOnto cells path v rest := by
  cases v with
  | list source items =>
    have hitems := writeItems_text cells path items (d.put "(") hd (41 :: rest)
    rw [text_put, List.append_assoc] at hitems
    rw [write, renderOnto, text_put, List.append_assoc]
    exact hitems
  | atom c =>
    have hopen : d.isOpen c = path.contains c := congrArg (List.contains · c) hd
    rw [write, renderOnto]
    by_cases hp : path.contains c
    · rw [dif_pos (hopen.trans hp), dif_pos hp, text_put, List.append_assoc]
    · rw [dif_neg (hopen ▸ hp), dif_neg hp]
      by_cases hc : c < cells.size
      · have := unopened_cons_lt hc hp
        have hopened : ((d.openCell c).put "(atom ").opened = c :: path := congrArg (c :: ·) hd
        have hcontents := write_text cells (c :: path) cells[c] _ hopened (41 :: rest)
        rw [text_put, text_openCell, List.append_assoc] at hcontents
        rw [dif_pos hc, dif_pos hc, text_closeCell, text_put, List.append_assoc]
        exact hcontents
      · rw [dif_neg hc, dif_neg hc, text_put, List.append_assoc]
  | _ => rw [write, renderOnto, text_put, List.append_assoc]
termination_by (unopened cells.size path, sizeOf v)

/-- The same for the items of a list. -/
theorem writeItems_text (cells : Array Value) (path : List CellId) (vs : List Value) (d : Draft)
    (hd : d.opened = path) (rest : Text) :
    (writeItems cells vs d).1.text ++ rest = d.text ++ renderItemsOnto cells path vs rest := by
  match vs with
  | [] => rw [writeItems, renderItemsOnto]
  | [v] => rw [writeItems, renderItemsOnto, write_text cells path v d hd rest]
  | v :: w :: ws =>
    -- the first value has left the same cells open
    have hopened : ((write cells v d).1.put " ").opened = path := (write cells v d).2.trans hd
    have hrest := writeItems_text cells path (w :: ws) _ hopened rest
    rw [text_put, List.append_assoc] at hrest
    rw [writeItems, renderItemsOnto, ← write_text cells path v d hd]
    exact hrest
termination_by (unopened cells.size path, sizeOf vs)

end

/-- **The printed form of a value is the one along the empty path.** -/
theorem render_eq (cells : Array Value) (v : Value) :
    v.render cells = v.renderOnto cells [] [] := by
  have h := write_text cells [] v {} rfl []
  rw [List.append_nil] at h
  exact h

end Value

end TinyLisp
