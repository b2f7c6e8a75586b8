import Mathlib
import TinyLisp.Proofs.Automaton
import TinyLisp.Proofs.Grammar

/-!
# Writing back what was read

Reading loses, invents and moves nothing. A value is written as a sequence of pieces: each of its
nodes, and behind the items of each list the parenthesis that closes it. The pieces of the forms of
a source are its tokens, one for one, and each node knows the place of its own token.

* `Value.pieces`: a value as it is written; `Token.Writes`: which token stands for which piece.
* `Value.nodes`: the nodes of a value, each in front of its items.
* `writes_of_spells`: the tokens that spell a value are its pieces.
* `readAll_written`: the tokens of a source are the pieces of its forms, and the places of the nodes
  increase.
-/

namespace TinyLisp

/-! ## Values as they are written -/

/-- A piece of a value as it is written: a node, of which a list has only its opening parenthesis
here, or the parenthesis that closes a list. -/
inductive Piece where
  | node (v : Value)
  | close

/-- The node at a piece. -/
def Piece.node? : Piece → Option Value
  | .node v => some v
  | .close => none

namespace Value

mutual

/-- The pieces of a value, in the order in which they are written. -/
def pieces : Value → List Piece
  | .list source items => .node (.list source items) :: (itemPieces items ++ [.close])
  | v => [.node v]

/-- The pieces of some values, one value behind the other. -/
def itemPieces : List Value → List Piece
  | [] => []
  | v :: vs => v.pieces ++ itemPieces vs

end

mutual

/-- The nodes of a value in preorder: a list is in front of its items. -/
def nodes : Value → List Value
  | .list source items => .list source items :: itemNodes items
  | v => [v]

/-- The nodes of some values, one value behind the other. -/
def itemNodes : List Value → List Value
  | [] => []
  | v :: vs => v.nodes ++ itemNodes vs

end

theorem itemPieces_eq (items : List Value) : itemPieces items = items.flatMap pieces := by
  induction items with
  | nil => rfl
  | cons v vs ih => rw [itemPieces, ih, List.flatMap_cons]

theorem itemNodes_eq (items : List Value) : itemNodes items = items.flatMap nodes := by
  induction items with
  | nil => rfl
  | cons v vs ih => rw [itemNodes, ih, List.flatMap_cons]

mutual

/-- The nodes among the pieces of a value are its nodes. -/
theorem node?_pieces : ∀ v : Value, v.pieces.filterMap Piece.node? = v.nodes
  | .list source items => by
    have hnode : (Piece.node (.list source items)).node? = some (.list source items) := rfl
    have hclose : [Piece.close].filterMap Piece.node? = [] := rfl
    rw [pieces, nodes, List.filterMap_cons_some hnode, List.filterMap_append, hclose,
      List.append_nil, node?_itemPieces items]
  | .scalar .. | .closure .. | .builtin .. | .atom .. | .invalid _ => rfl

theorem node?_itemPieces :
    ∀ items : List Value, (itemPieces items).filterMap Piece.node? = itemNodes items
  | [] => rfl
  | v :: vs => by
    rw [itemPieces, List.filterMap_append, node?_pieces v, node?_itemPieces vs, itemNodes]

end

end Value

/-! ## Tokens that stand for pieces -/

/-- The text spells the integer `n` in decimal. -/
def Text.Denotes (t : Text) (n : Int) : Prop :=
  ∃ word sign digits, t = .ofChars word ∧ SpellsInt word sign digits ∧ n = signedValue sign digits

/-- The token stands for the scalar. The constants are written as symbols. -/
def Token.WritesScalar (t : Token) : Scalar → Prop
  | .symbol name => t.kind = .symbol ∧ t.text = name
  | .int n => t.kind = .int ∧ t.text.Denotes n.toInt
  | .bool b => t.kind = .symbol ∧ t.text = if b then ("true" : Text) else ("false" : Text)
  | .string text => t.kind = .string ∧ t.text = text
  | .nil => t.kind = .symbol ∧ t.text = ("nil" : Text)

/-- The token stands for the piece. A node is at the place of its token, and nothing but scalars and
lists is written. -/
def Token.Writes (t : Token) : Piece → Prop
  | .node (.scalar source s) => source = some t.source ∧ t.WritesScalar s
  | .node (.list source _) => source = some t.source ∧ t.kind = .leftParen ∧ t.text = ("(" : Text)
  | .node _ => False
  | .close => t.kind = .rightParen ∧ t.text = (")" : Text)

variable {t : Token} {s : Scalar} {v : Value} {vs : List Value} {ts : List Token}
  {ps : List Piece} {pieces : List (Value × List Token)}

theorem Token.IsLexeme.text_left (ht : t.IsLexeme) (hk : t.kind = .leftParen) :
    t.text = ("(" : Text) := by
  rwa [Token.IsLexeme, hk] at ht

theorem Token.IsLexeme.text_right (ht : t.IsLexeme) (hk : t.kind = .rightParen) :
    t.text = (")" : Text) := by
  rwa [Token.IsLexeme, hk] at ht

theorem writesScalar_ofWord (hk : t.kind = .symbol) : t.WritesScalar (Scalar.ofWord t.text) := by
  unfold Scalar.ofWord
  split
  · exact ⟨hk, ‹_›⟩
  split
  · exact ⟨hk, ‹_›⟩
  split
  · exact ⟨hk, ‹_›⟩
  · exact ⟨hk, rfl⟩

/-- A token of a source stands for the scalar that is read from it. -/
theorem writesScalar_of_ofToken? (ht : t.IsLexeme) (h : Scalar.ofToken? t = some s) :
    t.WritesScalar s := by
  unfold Scalar.ofToken? at h
  split at h
  · rename_i hk
    rw [Token.IsLexeme, hk] at ht
    obtain ⟨⟨word, hword, -⟩, hsome⟩ := ht
    obtain ⟨n, hn⟩ := Option.isSome_iff_exists.1 hsome
    rw [hn] at h
    obtain rfl := Option.some.inj h
    rw [hword, Text.toInt64?_eq_some_iff, toInt?_eq_some_iff] at hn
    obtain ⟨sign, digits, hspells, hvalue⟩ := hn
    exact ⟨hk, word, sign, digits, hword, hspells, hvalue⟩
  · rename_i hk
    obtain rfl := Option.some.inj h
    exact ⟨hk, rfl⟩
  · rename_i hk
    obtain rfl := Option.some.inj h
    exact writesScalar_ofWord hk
  · cases h

/-- Values that are written one behind the other are written by their tokens one behind the
other. -/
theorem writes_flatMap
    (h : ∀ p ∈ pieces, List.Forall₂ Token.Writes p.2 p.1.pieces) :
    List.Forall₂ Token.Writes (pieces.flatMap (·.2)) ((pieces.map (·.1)).flatMap Value.pieces) := by
  induction pieces with
  | nil => exact .nil
  | cons p pieces ih =>
    obtain ⟨hp, hpieces⟩ := List.forall_mem_cons.1 h
    rw [List.flatMap_cons, List.map_cons, List.flatMap_cons]
    exact List.rel_append hp (ih hpieces)

/-- **The tokens that spell a value are its pieces.** -/
theorem writes_of_spells (h : Spells v ts) (hts : ∀ t ∈ ts, t.IsLexeme) :
    List.Forall₂ Token.Writes ts v.pieces := by
  induction h with
  | scalar h =>
    have ht := hts _ List.mem_cons_self
    exact .cons ⟨rfl, writesScalar_of_ofToken? ht h⟩ .nil
  | @list l r pieces hl _ hr ih =>
    obtain ⟨hleft, hbehind⟩ := List.forall_mem_cons.1 hts
    obtain ⟨hitems, hclose⟩ := List.forall_mem_append.1 hbehind
    have hright : r.IsLexeme := hclose r List.mem_cons_self
    rw [Value.pieces, Value.itemPieces_eq]
    refine .cons ⟨rfl, hl, hleft.text_left hl⟩ (List.rel_append (writes_flatMap ?_) ?_)
    · intro p hp
      exact ih p hp fun t ht => hitems t (List.mem_flatMap.2 ⟨p, hp, ht⟩)
    · exact .cons ⟨hr, hright.text_right hr⟩ .nil

/-! ## The order of places -/

/-- Both values were read, and the first one in front of the second. -/
def Value.Before (v w : Value) : Prop :=
  ∃ l m, v.source = some l ∧ w.source = some m ∧ l.pos < m.pos

theorem source_of_writes (h : t.Writes (.node v)) : v.source = some t.source := by
  cases v with
  | scalar source s => exact h.1
  | list source items => exact h.1
  | closure | builtin | atom | invalid => exact h.elim

theorem exists_writes (h : List.Forall₂ Token.Writes ts ps) {p : Piece} (hp : p ∈ ps) :
    ∃ t ∈ ts, t.Writes p := by
  induction h with
  | nil => cases hp
  | @cons t q ts ps ht _ ih =>
    rcases List.mem_cons.1 hp with rfl | hp
    · exact ⟨t, List.mem_cons_self, ht⟩
    · obtain ⟨u, hu, hwrites⟩ := ih hp
      exact ⟨u, List.mem_cons_of_mem t hu, hwrites⟩

/-- Where the places of tokens increase, so do those of the nodes they stand for. -/
theorem before_of_writes (h : List.Forall₂ Token.Writes ts ps)
    (hts : ts.Pairwise fun t u => t.source.pos < u.source.pos) :
    (ps.filterMap Piece.node?).Pairwise Value.Before := by
  induction h with
  | nil => exact .nil
  | @cons t p ts ps ht hrest ih =>
    obtain ⟨hlt, hts⟩ := List.pairwise_cons.1 hts
    have ih := ih hts
    cases p with
    | close => exact ih
    | node v =>
      refine List.pairwise_cons.2 ⟨?_, ih⟩
      intro w hw
      obtain ⟨q, hq, hnode⟩ := List.mem_filterMap.1 hw
      obtain rfl : q = .node w := by
        cases q with
        | node w' => exact congrArg Piece.node (Option.some.inj hnode)
        | close => cases hnode
      obtain ⟨u, hu, hwrites⟩ := exists_writes hrest hq
      exact ⟨_, _, source_of_writes ht, source_of_writes hwrites, hlt u hu⟩

theorem nodes_flatMap (vs : List Value) :
    (vs.flatMap Value.pieces).filterMap Piece.node? = vs.flatMap Value.nodes := by
  rw [← Value.itemPieces_eq, ← Value.itemNodes_eq, Value.node?_itemPieces]

/-! ## Whole sources -/

/-- **Reading loses, invents and moves nothing.** Where a source is read to its end, its tokens are
the pieces of the forms in order, each node at the place of its own token; and in preorder the places
of the nodes increase. -/
theorem readAll_written {file bytes : Text} {failure : Option Text}
    (h : readAll file bytes failure = .ok vs) :
    (tokenize file bytes failure).2 = none ∧
      List.Forall₂ Token.Writes (tokenize file bytes failure).1 (vs.flatMap Value.pieces) ∧
      (vs.flatMap Value.nodes).Pairwise Value.Before := by
  have hincreasing := tokenize_increasing file bytes failure
  obtain ⟨pieces, hspelled, rfl, htokens, hlexemes⟩ := allSpelled_of_readAll h
  rw [htokens] at hincreasing ⊢
  have hwritten : List.Forall₂ Token.Writes (pieces.flatMap (·.2))
      ((pieces.map (·.1)).flatMap Value.pieces) := by
    refine writes_flatMap ?_
    intro p hp
    refine writes_of_spells (hspelled p hp) ?_
    intro t ht
    exact hlexemes t (List.mem_flatMap.2 ⟨p, hp, ht⟩)
  refine ⟨rfl, hwritten, ?_⟩
  rw [← nodes_flatMap]
  exact before_of_writes hwritten hincreasing

/-- Lists in a list, a parenthesis in a string, integers with a sign and padding, and two lines. -/
theorem readAll_written_nested :
    ∃ vs, readAll "in" "(+07 ('a)' ()))\n-3" none = .ok vs ∧
      (vs.flatMap Value.nodes).length = 6 ∧
      (tokenize "in" "(+07 ('a)' ()))\n-3" none).2 = none ∧
      List.Forall₂ Token.Writes (tokenize "in" "(+07 ('a)' ()))\n-3" none).1
        (vs.flatMap Value.pieces) ∧
      (vs.flatMap Value.nodes).Pairwise Value.Before := by
  have h : readAll "in" "(+07 ('a)' ()))\n-3" none =
      .ok [.list (some { file := "in", pos := 0, line := 1, col := 1 })
          [.scalar (some { file := "in", pos := 1, line := 1, col := 2 }) (.int 7),
           .list (some { file := "in", pos := 5, line := 1, col := 6 })
             [.scalar (some { file := "in", pos := 6, line := 1, col := 7 }) (.string "a)"),
              .list (some { file := "in", pos := 11, line := 1, col := 12 }) []]],
        .scalar (some { file := "in", pos := 16, line := 2, col := 1 }) (.int (-3))] := by
    cbv
  exact ⟨_, h, rfl, readAll_written h⟩

end TinyLisp
