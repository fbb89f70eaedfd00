import Frontend.Proofs.Regex.Annotations
import Frontend.Proofs.Regex.WrittenForms

/-!
# What is read from postfix form, and its nodes

A list of tokens is read as an expression exactly if it is the postorder of one
(`Tree.exists_ofPostfix_iff`). The nodes of what is read are listed as the tokens are, with the
mark and the root behind them, so a pass through the list meets the parts of an expression before
the expression itself.

A node is the last one of a part of the expression, and its children are the last ones of the parts
of this part, so they have smaller numbers (`Tree.lt_of_hasChild`). That each node but the root is a
child exactly once is an induction on the expression: the children that stand among its nodes are
all of these nodes but the last (`Expr.perm_children_nodes`).

No expression is needed to get the nodes: an arena takes one node for each token, and a stack keeps
the numbers of those that are no children yet. Its nodes are always those of the expressions that
reading holds on its own stack (`Arena.Holds`, `Arena.rel_build`). `Tree.ofPostfix_spec` puts this
together.
-/

namespace Frontend.Regex

namespace NodeKind

/-- The numbers of the children of a node. -/
def children : NodeKind → List Nat
  | symbol .. | epsilon | marker _ => []
  | star child => [child]
  | concat left right | alt left right => [left, right]

/-- The token that a node is written as. The mark is not written. -/
def token? : NodeKind → Option Token
  | symbol _ c => some (.literal c)
  | epsilon => some (.op .epsilon)
  | marker _ => none
  | star _ => some (.op .star)
  | concat .. => some (.op .concat)
  | alt .. => some (.op .alt)

/-- The occurrence of a symbol that a leaf stands for. -/
def symbol? : NodeKind → Option (Nat × Char)
  | symbol p c => some (p, c)
  | _ => none

end NodeKind

/-- The node of number `n` has the one of number `m` as a child. -/
def HasChild (nodes : List Node) (n m : Nat) : Prop :=
  ∃ node, nodes[n]? = some node ∧ m ∈ node.kind.children

variable {nodes : List Node} {m n n' : Nat}

/-- If no number occurs twice among the children, a node is the child of one node only. -/
theorem HasChild.unique (hnodup : (nodes.flatMap fun node => node.kind.children).Nodup)
    (h : HasChild nodes n m) (h' : HasChild nodes n' m) : n = n' := by
  obtain ⟨-, hpairwise⟩ := List.nodup_flatMap.1 hnodup
  have hne : ∀ n n', n < n' → HasChild nodes n m → ¬ HasChild nodes n' m := by
    intro n n' hlt h h'
    obtain ⟨node, hnode, hm⟩ := h
    obtain ⟨node', hnode', hm'⟩ := h'
    obtain ⟨hn, rfl⟩ := List.getElem?_eq_some_iff.1 hnode
    obtain ⟨hn', rfl⟩ := List.getElem?_eq_some_iff.1 hnode'
    exact List.pairwise_iff_getElem.1 hpairwise n n' hn hn' hlt hm hm'
  rcases Nat.lt_trichotomy n n' with hlt | heq | hgt
  · exact absurd h' (hne n n' hlt h)
  · exact heq
  · exact absurd h (hne n' n hgt h')

theorem mem_children_iff :
    m ∈ nodes.flatMap (fun node => node.kind.children) ↔ ∃ n, HasChild nodes n m := by
  rw [List.mem_flatMap]
  constructor
  · intro h
    obtain ⟨node, hnode, hm⟩ := h
    obtain ⟨n, hn⟩ := List.mem_iff_getElem?.1 hnode
    exact ⟨n, node, hn, hm⟩
  · intro h
    obtain ⟨n, node, hn, hm⟩ := h
    exact ⟨node, List.mem_of_getElem? hn, hm⟩

namespace Expr

variable {e : Expr}

/-- Without the mark, only operands, stars, concatenations and alternatives are left. -/
theorem isCore_pattern (he : e.Plain) : e.pattern.IsCore := by
  induction e with
  | symbol | epsilon => trivial
  | marker => exact he.elim
  | star e ih => exact ih he
  | concat l r ihl ihr | alt l r ihl ihr => exact ⟨ihl he.1, ihr he.2⟩

/-! ## The nodes of an expression -/

/-- The nodes of an expression are its postfix form. -/
theorem map_token?_nodes (he : e.Plain) (n : Nat) :
    (e.nodes n).map (fun node => node.kind.token?) = e.postorder.map some := by
  induction e generalizing n with
  | symbol | epsilon => rfl
  | marker => exact he.elim
  | star e ih => rw [nodes, List.map_append, ih he, postorder, List.map_append]; rfl
  | concat l r ihl ihr | alt l r ihl ihr =>
    rw [nodes, List.map_append, List.map_append, ihl he.1, ihr he.2, postorder, List.map_append,
      List.map_append]
    rfl

theorem length_postorder (he : e.Plain) : e.postorder.length = e.size := by
  have h := congrArg List.length (map_token?_nodes he 0)
  rw [List.length_map, List.length_map, length_nodes] at h
  exact h.symm

/-- The leaves are the symbols, from left to right. -/
theorem filterMap_symbol?_nodes (e : Expr) (n : Nat) :
    (e.nodes n).filterMap (fun node => node.kind.symbol?) = e.symbols := by
  induction e generalizing n with
  | symbol | epsilon | marker => rfl
  | star e ih =>
    rw [nodes, List.filterMap_append, ih, symbols]
    exact List.append_nil _
  | concat l r ihl ihr | alt l r ihl ihr =>
    rw [nodes, List.filterMap_append, List.filterMap_append, ihl, ihr, symbols]
    exact List.append_nil _

/-- The parts of an expression end before it does. -/
theorem lt_of_mem_children_rootKind (h : m ∈ (e.rootKind n).children) : m < n + e.size - 1 := by
  cases e with
  | symbol | epsilon | marker => cases h
  | star e =>
    have hpos := e.size_pos
    obtain rfl := List.mem_singleton.1 h
    rw [size]
    omega
  | concat l r | alt l r =>
    have hl := l.size_pos
    have hr := r.size_pos
    rw [size]
    rcases List.mem_cons.1 h with rfl | h
    · omega
    · obtain rfl := List.mem_singleton.1 h
      omega

/-- **Each node of an expression but the last is a child once**: with the last node, the children
that its nodes have are its nodes. -/
theorem perm_children_nodes (e : Expr) (n : Nat) :
    ((e.nodes n).flatMap (fun node => node.kind.children) ++ [n + e.size - 1]).Perm
      (List.range' n e.size) := by
  induction e generalizing n with
  | symbol | epsilon | marker => exact .refl _
  | star e ih =>
    rw [nodes, List.flatMap_append, size, List.range'_1_concat]
    exact (ih n).append_right _
  | concat l r ihl ihr | alt l r ihl ihr =>
    rw [nodes, List.flatMap_append, List.flatMap_append, size, List.range'_1_concat,
      ← List.range'_append_1]
    refine List.Perm.append_right _ (.trans ?_ ((ihl n).append (ihr (n + l.size))))
    -- The last nodes of the two parts are the children of the node for both.
    simp only [List.flatMap_cons, List.flatMap_nil, List.append_nil, NodeKind.children,
      List.append_assoc, List.cons_append, List.nil_append]
    exact List.Perm.append_left _ List.perm_middle

end Expr

/-! ## Nodes pushed one by one -/

/-- What has been read of a postfix form: the nodes pushed so far, the numbers of those that wait to
become children, the latest first, and the position of the next literal. -/
structure Arena where
  kinds : List NodeKind
  waiting : List Nat
  next : Nat

namespace Arena

/-- Pushes a node, which then waits before those that are left. -/
def push (a : Arena) (kind : NodeKind) (left : List Nat) : Arena :=
  { a with kinds := a.kinds ++ [kind], waiting := a.kinds.length :: left }

/-- Reads a token, for which one node is pushed. -/
def step (a : Arena) : Token → Option Arena
  | .literal c => some { a.push (.symbol a.next c) a.waiting with next := a.next + 1 }
  | .op .epsilon => some (a.push .epsilon a.waiting)
  | .op .star =>
    match a.waiting with
    | i :: waiting => some (a.push (.star i) waiting)
    | [] => none
  | .op .concat =>
    match a.waiting with
    | j :: i :: waiting => some (a.push (.concat i j) waiting)
    | _ => none
  | .op .alt =>
    match a.waiting with
    | j :: i :: waiting => some (a.push (.alt i j) waiting)
    | _ => none
  | .op _ => none

/-- The nodes pushed for the tokens, for the mark and for the root, if one node waits in the end. -/
def ofPostfix (ts : List Token) : Option (List NodeKind) :=
  match ts.foldlM step ⟨[], [], 1⟩ with
  | some ⟨kinds, [body], next⟩ => some (kinds ++ [.marker next, .concat body kinds.length])
  | _ => none

variable {stack : List Expr} {kinds : List NodeKind} {waiting : List Nat} {e l r : Expr} {i j : Nat}

/-- The nodes pushed so far are those of expressions on a stack, one after the other, and the last
node of each of them waits. -/
inductive Holds : List Expr → List NodeKind → List Nat → Prop
  | nil : Holds [] [] []
  | push {stack : List Expr} {kinds : List NodeKind} {waiting : List Nat}
    (h : Holds stack kinds waiting) (e : Expr) :
    Holds (e :: stack) (kinds ++ (e.nodes kinds.length).map Node.kind)
      ((kinds.length + e.size - 1) :: waiting)

theorem Holds.star (h : Holds (e :: stack) kinds (i :: waiting)) :
    Holds (.star e :: stack) (kinds ++ [.star i]) (kinds.length :: waiting) := by
  cases h with
  | @push _ before _ h =>
    have hstar := h.push (.star e)
    rw [Expr.nodes, List.map_append, ← List.append_assoc] at hstar
    rwa [List.length_append, List.length_map, Expr.length_nodes]

/-- The nodes of two expressions, the second behind the first. -/
theorem Holds.pair (h : Holds (r :: l :: stack) kinds (j :: i :: waiting)) :
    ∃ before : List NodeKind, Holds stack before waiting ∧
      kinds = before ++ ((l.nodes before.length).map Node.kind ++
        (r.nodes (before.length + l.size)).map Node.kind) ∧
      i = before.length + l.size - 1 ∧ j = before.length + l.size + r.size - 1 := by
  rcases h with _ | ⟨_ | ⟨h, _⟩, _⟩
  next before =>
  refine ⟨before, h, ?_, rfl, ?_⟩
  · rw [List.append_assoc, List.length_append, List.length_map, Expr.length_nodes]
  · rw [List.length_append, List.length_map, Expr.length_nodes]

/-- A node whose children are the last nodes of two expressions makes one expression of them. -/
theorem Holds.join (h : Holds (r :: l :: stack) kinds (j :: i :: waiting))
    {kind : Nat → Nat → NodeKind}
    (hnodes : ∀ n, e.nodes n = l.nodes n ++ r.nodes (n + l.size) ++
      [⟨kind (n + l.size - 1) (n + l.size + r.size - 1), e.borders⟩])
    (hsize : e.size = l.size + r.size + 1) :
    Holds (e :: stack) (kinds ++ [kind i j]) (kinds.length :: waiting) := by
  obtain ⟨before, hbefore, rfl, rfl, rfl⟩ := h.pair
  have hjoined := hbefore.push e
  rw [hnodes, hsize, List.map_append, List.map_append, ← List.append_assoc] at hjoined
  rwa [List.length_append, List.length_append, List.length_map, List.length_map,
    Expr.length_nodes, Expr.length_nodes]

/-- **Pushing goes along with reading**: it fails where reading fails, and else pushes the nodes of
the expressions that are read. -/
theorem rel_build (ts : List Token) (next : Nat) (h : Holds stack kinds waiting) :
    Option.Rel (fun read a => Holds read.1 a.kinds a.waiting ∧ read.2 = a.next)
      (Tree.build stack next ts) (ts.foldlM step ⟨kinds, waiting, next⟩) := by
  fun_induction Tree.build stack next ts generalizing kinds waiting with
  | case1 stack next => exact .some ⟨h, rfl⟩
  | case2 stack next c rest ih => exact ih (h.push (.symbol next c))
  | case3 stack next rest ih => exact ih (h.push .epsilon)
  | case4 next rest e stack ih =>
    cases h with
    | push h => exact ih (h.push e).star
  | case5 =>
    cases h
    exact .none
  | case6 next rest r l stack ih =>
    rcases h with _ | ⟨_ | ⟨h, _⟩, _⟩
    exact ih (((h.push l).push r).join (fun _ => rfl) rfl)
  | case7 stack next rest hstack =>
    rcases h with _ | ⟨_ | ⟨h, l⟩, r⟩
    · exact .none
    · exact .none
    · exact (hstack _ _ _ rfl).elim
  | case8 next rest r l stack ih =>
    rcases h with _ | ⟨_ | ⟨h, _⟩, _⟩
    exact ih (((h.push l).push r).join (fun _ => rfl) rfl)
  | case9 stack next rest hstack =>
    rcases h with _ | ⟨_ | ⟨h, l⟩, r⟩
    · exact .none
    · exact .none
    · exact (hstack _ _ _ rfl).elim
  | case10 stack next o rest hepsilon hstar hconcat halt =>
    cases o with
    | epsilon => exact (hepsilon rfl).elim
    | star => exact (hstar rfl).elim
    | concat => exact (hconcat rfl).elim
    | alt => exact (halt rfl).elim
    | _ => exact .none

end Arena

namespace Tree

variable {t : Tree} {ts : List Token}

/-! ## What is read -/

theorem Numbered.numberedFrom (ht : t.Numbered) :
    t.body.NumberedFrom 1 ∧ t.markerPosition = t.body.positions.length + 1 := by
  have hlength := congrArg List.length ht.positions
  rw [List.length_append, List.length_singleton, List.length_range'] at hlength
  have hpositions := ht.positions
  rw [← hlength, List.range'_1_concat] at hpositions
  exact ⟨⟨ht.plain, List.append_inj_left' hpositions rfl⟩, hlength.symm⟩

/-- **The postorders are what is read.** -/
theorem exists_ofPostfix_iff :
    (∃ t, ofPostfix ts = .ok t) ↔ ∃ p : Pattern, p.IsCore ∧ p.postorder = ts := by
  constructor
  · intro h
    obtain ⟨t, ht⟩ := h
    have hplain := (numbered_of_ofPostfix ht).plain
    exact ⟨t.body.pattern, Expr.isCore_pattern hplain,
      (Expr.postorder_pattern hplain).trans (postorder_of_ofPostfix ht)⟩
  · intro h
    obtain ⟨p, hp, rfl⟩ := h
    obtain ⟨e, rfl, he⟩ := Expr.exists_expr hp 1
    rw [Expr.postorder_pattern he.plain]
    exact ⟨_, Expr.ofPostfix_postorder he⟩

theorem eq_of_ofPostfix_eq_error {err : Error} (h : ofPostfix ts = .error err) :
    err = .malformedExpression (render ts) := by
  unfold ofPostfix at h
  split at h
  · cases h
  · cases h
    rfl

/-! ## Children -/

/-- **Children come before their parents.** -/
theorem lt_of_hasChild (h : HasChild t.nodes n m) : m < n := by
  obtain ⟨node, hnode, hm⟩ := h
  have hlength : t.nodes.length = t.root.size := by rw [nodes_eq, Expr.length_nodes]
  obtain ⟨hlt, -⟩ := List.getElem?_eq_some_iff.1 hnode
  obtain ⟨k, e, he, rfl⟩ := t.stands_root.exists_part (Nat.zero_le n) (by omega)
  obtain rfl := Option.some.inj (hnode.symm.trans he.getElem?_root)
  exact Expr.lt_of_mem_children_rootKind hm

/-- The nodes but the root are the children, each of them once. -/
theorem perm_children (t : Tree) :
    (t.nodes.flatMap fun node => node.kind.children).Perm (List.range (t.body.size + 1)) := by
  have h := t.root.perm_children_nodes 0
  rw [← nodes_eq, show t.root.size = t.body.size + 1 + 1 from rfl, List.range'_1_concat] at h
  rw [List.range_eq_range']
  exact (List.perm_append_right_iff _).1 h

/-- **Every node but the root is the child of exactly one node.** -/
theorem existsUnique_hasChild (h : m ≤ t.body.size) : ∃! n, HasChild t.nodes n m := by
  have hmem : m ∈ t.nodes.flatMap fun node => node.kind.children :=
    t.perm_children.mem_iff.2 (List.mem_range.2 (Nat.lt_succ_of_le h))
  obtain ⟨n, hn⟩ := mem_children_iff.1 hmem
  exact ⟨n, hn, fun n' hn' => hn'.unique (t.perm_children.nodup_iff.2 List.nodup_range) hn⟩

/-! ## The nodes in order -/

/-- The nodes of a tree stand for tokens: one node for each token in order, then the mark and the
root. -/
structure LaidOut (t : Tree) (ts : List Token) : Prop where
  kinds : ∃ kinds : List NodeKind, kinds.map NodeKind.token? = ts.map some ∧
    t.nodes.map Node.kind =
      kinds ++ [.marker ((literals ts).length + 1), .concat (ts.length - 1) ts.length]
  child_lt : ∀ n m, HasChild t.nodes n m → m < n
  existsUnique_parent : ∀ m, m ≤ ts.length → ∃! n, HasChild t.nodes n m
  nodup_children : (t.nodes.flatMap fun node => node.kind.children).Nodup
  /-- The literals have the positions 1, 2, … in order. -/
  leaves : t.nodes.filterMap (fun node => node.kind.symbol?) = Text.numberFrom 1 (literals ts)
  markerPosition : t.markerPosition = (literals ts).length + 1
  symbolAt : ∀ p c, t.symbolAt.get? p = some c ↔ (p, c) ∈ Text.numberFrom 1 (literals ts)

/-- The nodes of the expression, the mark and the root. -/
theorem map_kind_nodes (t : Tree) :
    t.nodes.map Node.kind = (t.body.nodes 0).map Node.kind ++
      [.marker t.markerPosition, .concat (t.body.size - 1) t.body.size] := by
  have hroot : t.root.nodes 0 = t.body.nodes 0 ++ [⟨.marker t.markerPosition, _⟩] ++
      [⟨.concat (0 + t.body.size - 1) (0 + t.body.size + 1 - 1), _⟩] := rfl
  rw [nodes_eq, hroot, Nat.zero_add, List.append_assoc, List.map_append]
  rfl

/-- **The nodes that are pushed one by one are those of what is read.** -/
theorem arena_ofPostfix (ts : List Token) :
    Arena.ofPostfix ts = (ofPostfix ts).toOption.map fun t => t.nodes.map Node.kind := by
  have hrel := Arena.rel_build ts 1 .nil
  unfold Arena.ofPostfix ofPostfix
  generalize build [] 1 ts = result at hrel ⊢
  generalize ts.foldlM Arena.step ⟨[], [], 1⟩ = arena at hrel ⊢
  cases hrel with
  | none => rfl
  | @some result arena hrel =>
    obtain ⟨stack, position⟩ := result
    obtain ⟨kinds, waiting, next⟩ := arena
    obtain ⟨hholds, rfl⟩ : Arena.Holds stack kinds waiting ∧ position = next := hrel
    rcases hholds with _ | ⟨_ | ⟨_, _⟩, e⟩
    · rfl
    · have hnodes := map_kind_nodes ⟨e, position⟩
      simp only [List.nil_append, List.length_nil, Nat.zero_add, List.length_map,
        Expr.length_nodes]
      exact congrArg some hnodes.symm
    · rfl

theorem laidOut_of_ofPostfix (h : ofPostfix ts = .ok t) : t.LaidOut ts := by
  have ht := numbered_of_ofPostfix h
  obtain ⟨hnumbered, hmarker⟩ := ht.numberedFrom
  have hpostorder := postorder_of_ofPostfix h
  have hsize : t.body.size = ts.length := by
    rw [← hpostorder, Expr.length_postorder ht.plain]
  have hsymbols := Expr.symbols_eq_numberFrom hnumbered
  rw [hpostorder] at hsymbols
  have hposition : t.markerPosition = (literals ts).length + 1 := by
    rw [hmarker, ← hpostorder, Expr.literals_postorder, List.length_map,
      ← Expr.map_fst_symbols ht.plain, List.length_map]
  constructor
  case kinds =>
    refine ⟨(t.body.nodes 0).map Node.kind, ?_, ?_⟩
    · rw [List.map_map, ← hpostorder]
      exact Expr.map_token?_nodes ht.plain 0
    · rw [map_kind_nodes, hposition, hsize]
  case child_lt => exact fun n m => lt_of_hasChild
  case existsUnique_parent => exact fun m hm => existsUnique_hasChild (hsize ▸ hm)
  case nodup_children => exact t.perm_children.nodup_iff.2 List.nodup_range
  case leaves =>
    rw [nodes_eq, Expr.filterMap_symbol?_nodes, ← hsymbols]
    exact List.append_nil _
  case markerPosition => exact hposition
  case symbolAt =>
    intro p c
    rw [ht.get?_symbolAt, hsymbols]

/-- **Reading takes the postorders and nothing else**, and lays out the nodes as the tokens are:
they are those that are pushed one by one, token by token. -/
theorem ofPostfix_spec (ts : List Token) :
    ((∃ t, ofPostfix ts = .ok t) ↔ ∃ p : Pattern, p.IsCore ∧ p.postorder = ts) ∧
      (∀ err, ofPostfix ts = .error err → err = .malformedExpression (render ts)) ∧
      (∀ t, ofPostfix ts = .ok t → t.body.postorder = ts ∧ t.LaidOut ts) ∧
      Arena.ofPostfix ts = (ofPostfix ts).toOption.map fun t => t.nodes.map Node.kind :=
  ⟨exists_ofPostfix_iff, fun _ => eq_of_ofPostfix_eq_error,
    fun _ h => ⟨postorder_of_ofPostfix h, laidOut_of_ofPostfix h⟩, arena_ofPostfix ts⟩

/-- A repetition before alternatives. Alternatives of one expression are not read. -/
theorem ofPostfix_spec_alternatives :
    ∃ t, ofPostfix [.literal 'a', .op .star, .literal 'b', .op .epsilon, .op .alt, .op .concat] =
        .ok t ∧
      t.nodes.map Node.kind = [.symbol 1 'a', .star 0, .symbol 2 'b', .epsilon, .alt 2 3,
        .concat 1 4, .marker 3, .concat 5 6] ∧
      t.nodes.filterMap (fun node => node.kind.symbol?) = [(1, 'a'), (2, 'b')] ∧
      (∃! n, HasChild t.nodes n 4) ∧
      ¬ ∃ p : Pattern, p.IsCore ∧ p.postorder = [.literal 'a', .op .alt] := by
  obtain ⟨t, ht⟩ : ∃ t, ofPostfix [.literal 'a', .op .star, .literal 'b', .op .epsilon, .op .alt,
    .op .concat] = .ok t := ⟨_, rfl⟩
  obtain ⟨-, -, hspec, -⟩ := ofPostfix_spec [.literal 'a', .op .star, .literal 'b', .op .epsilon,
    .op .alt, .op .concat]
  obtain ⟨-, hlaidOut⟩ := hspec t ht
  refine ⟨t, ht, ?_, hlaidOut.leaves, hlaidOut.existsUnique_parent 4 (by decide), fun h => ?_⟩
  · cases ht
    rfl
  · obtain ⟨u, hu⟩ := (ofPostfix_spec [.literal 'a', .op .alt]).1.2 h
    cases hu

end Tree

end Frontend.Regex
