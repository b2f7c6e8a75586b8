import Mathlib.Data.Finset.Insert
import Mathlib.Data.Finset.Dedup
import TinyLisp.Proofs.PathPrinter
import TinyLisp.Proofs.Sessions
import TinyLisp.Proofs.Validity

/-!
# What a printed form shows

The reference for printing is a relation. `Shows cells P v t` says that `v` is shown as the text `t`
where `P` is the set of the cells that lie on the path from the value printed to `v`. It grows on
the way into an atom and is the same for all items of a list, so what is shown for an item does not
depend on the items before it.

The printer has one draft for all of this, in which cells are opened and closed. In a store whose
cells hold valid values and lead to cells of the store (`SoundCells`), whatever cycles these make,
it shows the same: `render_iff_shows`.

* `Shows.unique`: a value is shown as one text at most.
* `write_shows`: the printer puts a text that is shown onto its draft, and changes nothing else.
* `State.WellFormed.soundCells`: the cells of an interpreter are such a store.
-/

namespace TinyLisp

variable {cells : Array Value} {P : Finset CellId} {v : Value} {t t' : Text}

/-! ## The reference -/

/-- The value is shown as the text, where the cells in the set are on the path to it. -/
inductive Shows (cells : Array Value) : Finset CellId → Value → Text → Prop
  | scalar {P : Finset CellId} {source : Option Location} {s : Scalar} :
      Shows cells P (.scalar source s) s.render
  | list {P : Finset CellId} {source : Option Location} (pieces : List (Value × Text))
      (h : ∀ p ∈ pieces, Shows cells P p.1 p.2) :
      Shows cells P (.list source (pieces.map (·.1)))
        ("(" ++ Text.join " " (pieces.map (·.2)) ++ ")")
  | closure {P : Finset CellId} {identity : Nat} {formals : List Text} {body : Value}
      {e : ScopeId} : Shows cells P (.closure identity formals body e) "<function>"
  | builtin {P : Finset CellId} {b : Builtin} :
      Shows cells P (.builtin b) ("<builtin:" ++ b.name ++ ">")
  | again {P : Finset CellId} {c : CellId} (hc : c ∈ P) : Shows cells P (.atom c) "(atom ...)"
  | opened {P : Finset CellId} {c : CellId} {v : Value} {t : Text} (hc : c ∉ P)
      (hv : cells[c]? = some v) (h : Shows cells (insert c P) v t) :
      Shows cells P (.atom c) ("(atom " ++ t ++ ")")

theorem shows_list {source : Option Location} {vs : List Value} :
    Shows cells P (.list source vs) t ↔ ∃ pieces : List (Value × Text), pieces.map (·.1) = vs ∧
      (∀ p ∈ pieces, Shows cells P p.1 p.2) ∧
      t = "(" ++ Text.join " " (pieces.map (·.2)) ++ ")" := by
  constructor
  · intro h
    cases h with
    | list pieces h => exact ⟨pieces, rfl, h, rfl⟩
  · rintro ⟨pieces, rfl, h, rfl⟩
    exact .list pieces h

/-- Items that are shown as one text at most are so together. -/
theorem pieces_unique {pieces pieces' : List (Value × Text)}
    (h : ∀ p ∈ pieces, ∀ t', Shows cells P p.1 t' → p.2 = t')
    (h' : ∀ p ∈ pieces', Shows cells P p.1 p.2)
    (hvalues : pieces.map (·.1) = pieces'.map (·.1)) : pieces = pieces' := by
  induction pieces generalizing pieces' with
  | nil => exact (List.map_eq_nil_iff.1 hvalues.symm).symm
  | cons p pieces ih =>
    cases pieces' with
    | nil => cases hvalues
    | cons p' pieces' =>
      obtain ⟨hp, hpieces⟩ := List.forall_mem_cons.1 h
      obtain ⟨hp', hpieces'⟩ := List.forall_mem_cons.1 h'
      obtain ⟨hvalue, hvalues⟩ := List.cons.inj hvalues
      have hvalue : p.1 = p'.1 := hvalue
      have htext : p.2 = p'.2 := hp _ (hvalue ▸ hp')
      rw [Prod.ext hvalue htext, ih hpieces hpieces' hvalues]

/-- **A value is shown as one text at most.** -/
theorem Shows.unique (h : Shows cells P v t) (h' : Shows cells P v t') : t = t' := by
  induction h generalizing t' with
  | list pieces _ ih =>
    obtain ⟨pieces', hvalues, hpieces', rfl⟩ := shows_list.1 h'
    rw [pieces_unique (fun p hp _ => ih p hp) hpieces' hvalues.symm]
  | again hc =>
    -- whether the cell is on the path decides between the rules for atoms
    cases h' with
    | again => rfl
    | opened hc' => exact absurd hc hc'
  | opened hc hv _ ih =>
    cases h' with
    | again hc' => exact absurd hc' hc
    | opened _ hv' h' =>
      obtain rfl := Option.some.inj (hv.symm.trans hv')
      rw [ih h']
  | _ => cases h'; rfl

/-! ## The printer -/

/-- The cells hold valid values, and these refer to cells of the store. -/
structure SoundCells (cells : Array Value) : Prop where
  valid : ∀ (c : CellId) v, cells[c]? = some v → v.Valid
  closed : ∀ (c : CellId) v, cells[c]? = some v → ∀ c', .cell c' ∈ v.refs → c' < cells.size

/-- The cells of a well-formed state without invalid values are sound. -/
theorem State.WellFormed.soundCells {s : State} (hs : s.WellFormed) (hvalid : s.Valid) :
    SoundCells s.cells where
  valid := hvalid.cells
  closed c v h _ hc' := hs.cells c v h _ hc'

namespace Draft

theorem put_put (d : Draft) (t t' : Text) : (d.put t).put t' = d.put (t ++ t') := by
  simp [put]

theorem closeCell_openCell (d : Draft) (c : CellId) (t : Text) :
    ((d.openCell c).put t).closeCell c = d.put t := by
  simp [put, openCell, closeCell]

end Draft

open Value Draft

mutual

/-- **The printer puts a text that is shown onto the draft, and changes nothing else.** -/
theorem write_shows (hcells : SoundCells cells) (path : List CellId) (v : Value) (hv : v.Valid)
    (hrefs : ∀ c, .cell c ∈ v.refs → c < cells.size) (d : Draft) (hd : d.opened = path) :
    ∃ t, Shows cells path.toFinset v t ∧ (v.write cells d).1 = d.put t := by
  cases v with
  | scalar source s => exact ⟨_, .scalar, by rw [write]⟩
  | closure identity formals body e => exact ⟨_, .closure, by rw [write]⟩
  | builtin b => exact ⟨_, .builtin, by rw [write]⟩
  | invalid => cases hv
  | list source items =>
    obtain ⟨pieces, rfl, hpieces, hitems⟩ :=
      writeItems_shows hcells path items (valid_list.1 hv) hrefs (d.put "(") hd
    exact ⟨_, .list pieces hpieces, by rw [write]; simp only [hitems, put_put]⟩
  | atom c =>
    have hopen : d.isOpen c = path.contains c := congrArg (List.contains · c) hd
    by_cases hp : path.contains c
    · exact ⟨_, .again (by simpa using hp), by rw [write, dif_pos (hopen.trans hp)]⟩
    · have hc : c < cells.size := hrefs c (List.mem_singleton.2 rfl)
      have hget : cells[c]? = some cells[c] := Array.getElem?_eq_getElem hc
      have := unopened_cons_lt hc hp
      -- the contents are written onto a draft in which the cell is open
      obtain ⟨t, hshows, hwrite⟩ := write_shows hcells (c :: path) cells[c] (hcells.valid c _ hget)
        (hcells.closed c _ hget) ((d.openCell c).put "(atom ") (congrArg (c :: ·) hd)
      rw [List.toFinset_cons] at hshows
      refine ⟨_, .opened (by simpa using hp) hget hshows, ?_⟩
      rw [write, dif_neg (hopen ▸ hp), dif_pos hc]
      simp only [hwrite, put_put, closeCell_openCell]
termination_by (unopened cells.size path, sizeOf v)

theorem writeItems_shows (hcells : SoundCells cells) (path : List CellId) (vs : List Value)
    (hvs : ValidAll vs) (hrefs : ∀ c, .cell c ∈ refsAll vs → c < cells.size) (d : Draft)
    (hd : d.opened = path) :
    ∃ pieces : List (Value × Text), pieces.map (·.1) = vs ∧
      (∀ p ∈ pieces, Shows cells path.toFinset p.1 p.2) ∧
      (writeItems cells vs d).1 = d.put (Text.join " " (pieces.map (·.2))) := by
  match vs with
  | [] => exact ⟨[], rfl, nofun, by rw [writeItems]; rfl⟩
  | [v] =>
    have hv := hvs v List.mem_cons_self
    obtain ⟨t, hshows, hwrite⟩ := write_shows hcells path v hv
      (fun c hc => hrefs c (List.mem_append_left _ hc)) d hd
    exact ⟨[(v, t)], rfl, by simpa using hshows, by rw [writeItems, hwrite]; rfl⟩
  | v :: w :: ws =>
    obtain ⟨hv, hws⟩ := validAll_cons.1 hvs
    obtain ⟨t, hshows, hwrite⟩ := write_shows hcells path v hv
      (fun c hc => hrefs c (List.mem_append_left _ hc)) d hd
    -- the first value has left the same cells open
    have hopened : ((write cells v d).1.put " ").opened = path := (write cells v d).2.trans hd
    obtain ⟨pieces, hvalues, hpieces, hrest⟩ := writeItems_shows hcells path (w :: ws) hws
      (fun c hc => hrefs c (List.mem_append_right _ hc)) _ hopened
    obtain ⟨p, pieces, rfl⟩ : ∃ p ps, pieces = p :: ps := by
      cases pieces with
      | nil => cases hvalues
      | cons p ps => exact ⟨p, ps, rfl⟩
    refine ⟨(v, t) :: p :: pieces, congrArg (v :: ·) hvalues,
      List.forall_mem_cons.2 ⟨hshows, hpieces⟩, ?_⟩
    rw [writeItems]
    refine hrest.trans ?_
    rw [hwrite, put_put, put_put, ← List.append_assoc]
    rfl
termination_by (unopened cells.size path, sizeOf vs)

end

/-- **A value is printed as it is shown along the path to it.** With no cell on the path this is its
printed form. With the cells on the path that are open in a draft, it is all that the printer puts
onto the draft: the same cells are open afterwards, so that nothing of a value printed gets into the
text of the next one. -/
theorem render_iff_shows (hcells : SoundCells cells) (hv : v.Valid)
    (hrefs : ∀ c, .cell c ∈ v.refs → c < cells.size) :
    (∀ t, Shows cells ∅ v t ↔ v.render cells = t) ∧
    ∀ d : Draft, ∃ t, (∀ t', Shows cells d.opened.toFinset v t' ↔ t' = t) ∧
      (v.write cells d).1 = d.put t := by
  have hdraft : ∀ d : Draft, ∃ t, (∀ t', Shows cells d.opened.toFinset v t' ↔ t' = t) ∧
      (v.write cells d).1 = d.put t := by
    intro d
    obtain ⟨t, hshows, hwrite⟩ := write_shows hcells d.opened v hv hrefs d rfl
    exact ⟨t, fun t' => ⟨fun h => h.unique hshows, fun h => h ▸ hshows⟩, hwrite⟩
  refine ⟨fun t => ?_, hdraft⟩
  obtain ⟨t', hshows, hwrite⟩ := hdraft {}
  have hrender : v.render cells = t' := by
    rw [render, hwrite]
    simp [Draft.text, Draft.put]
  rw [hrender]
  exact (hshows t).trans eq_comm

/-- Two atoms that hold each other, and the first of them printed before and after the second. -/
theorem render_iff_shows_cyclic :
    Shows
      #[.list none [.scalar none (.int 1), .atom 1], .list none [.atom 0, .scalar none (.int 2)]] ∅
      (.list none [.atom 0, .atom 1, .atom 0])
      (("((atom (1 (atom ((atom ...) 2)))) (atom ((atom (1 (atom ...))) 2)) " : Text) ++
        "(atom (1 (atom ((atom ...) 2)))))") := by
  have hcells : SoundCells #[.list none [.scalar none (.int 1), .atom 1],
      .list none [.atom 0, .scalar none (.int 2)]] := by
    constructor <;> intro c v h <;> have hv := Array.mem_of_getElem? h
    · rcases (by simpa using hv) with rfl | rfl <;> simp [Valid.scalar, Valid.atom]
    · rcases (by simpa using hv) with rfl | rfl <;> simp [refs, refsAll]
  have hv : (Value.list none [.atom 0, .atom 1, .atom 0]).Valid := by simp [Valid.atom]
  have hrefs : ∀ c, .cell c ∈ (Value.list none [.atom 0, .atom 1, .atom 0]).refs → c < 2 := by
    simp [refs, refsAll]
  refine ((render_iff_shows hcells hv hrefs).1 _).2 ?_
  rw [render_eq]
  cbv

end TinyLisp
