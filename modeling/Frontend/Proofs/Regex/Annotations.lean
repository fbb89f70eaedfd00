import Frontend.Proofs.Regex.Trees

/-!
# The annotations of a tree are exact

The nodes of a tree are numbered, and a node names its children by their numbers. `NodeWord` reads
the words of a node off the numbered nodes alone. Each node is the root of a part of the expression
(`Stands.exists_part`), and its words are those of that part (`nodeWord_iff`), so what holds of
expressions holds of nodes.

Of an expression it says exactly which words it has: whether the empty one (`nullable_iff`), which
positions begin and end words (`mem_first_iff`, `mem_last_iff`), and which two come one after the
other in a word (`follows_iff`). No position is listed in vain, since every expression has a word:
whatever a part contributes goes on to a word of the whole. `annotations_exact` puts this together
for what is read from tokens.
-/

namespace Frontend.Regex

open scoped Computability

namespace Expr

variable {e l r : Expr} {p q : Nat} {u v : List Nat}

/-! ## Words of an expression -/

theorem exists_mem_words (e : Expr) : ∃ u, u ∈ e.words := by
  induction e with
  | symbol p c => exact ⟨[p], rfl⟩
  | epsilon => exact ⟨[], rfl⟩
  | marker p => exact ⟨[p], rfl⟩
  | star e _ => exact ⟨[], Language.nil_mem_kstar _⟩
  | concat l r ihl ihr =>
    obtain ⟨u, hu⟩ := ihl
    obtain ⟨v, hv⟩ := ihr
    exact ⟨u ++ v, Language.append_mem_mul hu hv⟩
  | alt l r ihl _ =>
    obtain ⟨u, hu⟩ := ihl
    exact ⟨u, .inl hu⟩

theorem mem_words_star (hu : u ∈ e.words) : u ∈ (star e).words := by
  have h := Language.join_mem_kstar (l := e.words) (L := [u]) (by simpa using hu)
  rwa [List.flatten_singleton] at h

theorem append_mem_words_star (hu : u ∈ e.words) (hv : v ∈ e.words) :
    u ++ v ∈ (star e).words := by
  have h := Language.join_mem_kstar (l := e.words) (L := [u, v]) (by simp [hu, hv])
  rwa [List.flatten_cons, List.flatten_singleton] at h

/-- The empty word belongs to an expression exactly if it says so. -/
theorem nullable_iff : e.nullable = true ↔ [] ∈ e.words := by
  refine ⟨fun h => ?_, fun h => (fits_of_mem_words h).nullable rfl⟩
  induction e with
  | symbol p c => cases h
  | epsilon => exact rfl
  | marker p => cases h
  | star e _ => exact Language.nil_mem_kstar _
  | concat l r ihl ihr =>
    obtain ⟨hl, hr⟩ := nullable_concat.1 h
    exact Language.append_mem_mul (ihl hl) (ihr hr)
  | alt l r ihl ihr => exact (nullable_alt.1 h).imp ihl ihr

/-- The first positions are those that words begin with. -/
theorem mem_first_iff : p ∈ e.first ↔ ∃ u, p :: u ∈ e.words := by
  refine ⟨fun h => ?_, fun h => ?_⟩
  · induction e with
    | symbol q c =>
      obtain rfl := OrdSet.mem_singleton.1 h
      exact ⟨[], rfl⟩
    | epsilon => exact absurd h OrdSet.not_mem_empty
    | marker q =>
      obtain rfl := OrdSet.mem_singleton.1 h
      exact ⟨[], rfl⟩
    | star e ih =>
      obtain ⟨u, hu⟩ := ih h
      exact ⟨u, mem_words_star hu⟩
    | concat l r ihl ihr =>
      rcases mem_first_concat.1 h with h | ⟨hl, h⟩
      · obtain ⟨u, hu⟩ := ihl h
        obtain ⟨v, hv⟩ := r.exists_mem_words
        exact ⟨u ++ v, Language.append_mem_mul hu hv⟩
      · obtain ⟨v, hv⟩ := ihr h
        exact ⟨v, Language.append_mem_mul (nullable_iff.1 hl) hv⟩
    | alt l r ihl ihr =>
      rcases mem_first_alt.1 h with h | h
      · exact (ihl h).imp fun _ => .inl
      · exact (ihr h).imp fun _ => .inr
  · obtain ⟨u, hu⟩ := h
    exact (fits_of_mem_words hu).head p rfl

/-- The last positions are those that words end with. -/
theorem mem_last_iff : p ∈ e.last ↔ ∃ u, u ++ [p] ∈ e.words := by
  refine ⟨fun h => ?_, fun h => ?_⟩
  · induction e with
    | symbol q c =>
      obtain rfl := OrdSet.mem_singleton.1 h
      exact ⟨[], rfl⟩
    | epsilon => exact absurd h OrdSet.not_mem_empty
    | marker q =>
      obtain rfl := OrdSet.mem_singleton.1 h
      exact ⟨[], rfl⟩
    | star e ih =>
      obtain ⟨u, hu⟩ := ih h
      exact ⟨u, mem_words_star hu⟩
    | concat l r ihl ihr =>
      rcases mem_last_concat.1 h with h | ⟨hr, h⟩
      · obtain ⟨u, hu⟩ := l.exists_mem_words
        obtain ⟨v, hv⟩ := ihr h
        exact ⟨u ++ v, List.append_assoc u v [p] ▸ Language.append_mem_mul hu hv⟩
      · obtain ⟨u, hu⟩ := ihl h
        exact ⟨u, List.append_nil (u ++ [p]) ▸
          Language.append_mem_mul hu (nullable_iff.1 hr)⟩
    | alt l r ihl ihr =>
      rcases mem_last_alt.1 h with h | h
      · exact (ihl h).imp fun _ => .inl
      · exact (ihr h).imp fun _ => .inr
  · obtain ⟨u, hu⟩ := h
    exact (fits_of_mem_words hu).last p List.getLast?_concat

/-- A position follows another exactly if it comes right after it in some word. -/
theorem follows_iff : e.Follows p q ↔ ∃ u v, u ++ p :: q :: v ∈ e.words := by
  refine ⟨fun h => ?_, fun h => ?_⟩
  · -- A word that ends with `p` and one that begins with `q` meet in a round or a concatenation.
    have hmeet : ∀ {l r : Expr}, p ∈ l.last → q ∈ r.first →
        ∃ u v, u ++ [p] ∈ l.words ∧ q :: v ∈ r.words ∧
          u ++ [p] ++ q :: v = u ++ p :: q :: v := by
      intro l r hp hq
      obtain ⟨u, hu⟩ := mem_last_iff.1 hp
      obtain ⟨v, hv⟩ := mem_first_iff.1 hq
      exact ⟨u, v, hu, hv, by simp⟩
    induction e with
    | symbol _ _ => exact h.elim
    | epsilon => exact h.elim
    | marker _ => exact h.elim
    | star e ih =>
      rcases h with h | ⟨hp, hq⟩
      · obtain ⟨u, v, huv⟩ := ih h
        exact ⟨u, v, mem_words_star huv⟩
      · obtain ⟨u, v, hu, hv, heq⟩ := hmeet hp hq
        exact ⟨u, v, heq ▸ append_mem_words_star hu hv⟩
    | concat l r ihl ihr =>
      rcases h with (h | h) | ⟨hp, hq⟩
      · obtain ⟨u, v, huv⟩ := ihl h
        obtain ⟨w, hw⟩ := r.exists_mem_words
        refine ⟨u, v ++ w, ?_⟩
        have hword := Language.append_mem_mul huv hw
        rwa [List.append_assoc] at hword
      · obtain ⟨w, hw⟩ := l.exists_mem_words
        obtain ⟨u, v, huv⟩ := ihr h
        refine ⟨w ++ u, v, ?_⟩
        rw [List.append_assoc]
        exact Language.append_mem_mul hw huv
      · obtain ⟨u, v, hu, hv, heq⟩ := hmeet hp hq
        exact ⟨u, v, heq ▸ Language.append_mem_mul hu hv⟩
    | alt l r ihl ihr =>
      rcases h with h | h
      · exact (ihl h).imp fun _ => .imp fun _ => .inl
      · exact (ihr h).imp fun _ => .imp fun _ => .inr
  · obtain ⟨u, v, huv⟩ := h
    exact (List.isChain_append_cons_cons.1 (fits_of_mem_words huv).chain).2.1

end Expr

/-! ## Words of numbered nodes -/

/-- The words of a node of a list of nodes, as sequences of positions. -/
inductive NodeWord (nodes : List Node) : Nat → List Nat → Prop
  | symbol {n p : Nat} {c : Char} {b : Borders} (h : nodes[n]? = some ⟨.symbol p c, b⟩) :
    NodeWord nodes n [p]
  | epsilon {n : Nat} {b : Borders} (h : nodes[n]? = some ⟨.epsilon, b⟩) : NodeWord nodes n []
  | marker {n p : Nat} {b : Borders} (h : nodes[n]? = some ⟨.marker p, b⟩) : NodeWord nodes n [p]
  | none {n i : Nat} {b : Borders} (h : nodes[n]? = some ⟨.star i, b⟩) : NodeWord nodes n []
  | more {n i : Nat} {b : Borders} {u v : List Nat} (h : nodes[n]? = some ⟨.star i, b⟩)
    (hu : NodeWord nodes i u) (hv : NodeWord nodes n v) : NodeWord nodes n (u ++ v)
  | concat {n i j : Nat} {b : Borders} {u v : List Nat} (h : nodes[n]? = some ⟨.concat i j, b⟩)
    (hu : NodeWord nodes i u) (hv : NodeWord nodes j v) : NodeWord nodes n (u ++ v)
  | left {n i j : Nat} {b : Borders} {u : List Nat} (h : nodes[n]? = some ⟨.alt i j, b⟩)
    (hu : NodeWord nodes i u) : NodeWord nodes n u
  | right {n i j : Nat} {b : Borders} {u : List Nat} (h : nodes[n]? = some ⟨.alt i j, b⟩)
    (hu : NodeWord nodes j u) : NodeWord nodes n u

/-- What the words of a node are made of, given the words of its children. -/
def NodeKind.Spells (W : Nat → List Nat → Prop) (u : List Nat) : NodeKind → Prop
  | symbol p _ | marker p => u = [p]
  | epsilon => u = []
  | star i => ∃ us : List (List Nat), u = us.flatten ∧ ∀ v ∈ us, W i v
  | concat i j => ∃ v w, u = v ++ w ∧ W i v ∧ W j w
  | alt i j => W i u ∨ W j u

/-- The words of a node are those that its kind makes of the words of its children. -/
theorem nodeWord_iff_spells {nodes : List Node} {n : Nat} {u : List Nat} {kind : NodeKind}
    {b : Borders} (h : nodes[n]? = some ⟨kind, b⟩) :
    NodeWord nodes n u ↔ kind.Spells (NodeWord nodes) u := by
  constructor
  · intro hu
    induction hu with
    | symbol h' => cases h'.symm.trans h; rfl
    | epsilon h' => cases h'.symm.trans h; rfl
    | marker h' => cases h'.symm.trans h; rfl
    | none h' => cases h'.symm.trans h; exact ⟨[], rfl, List.forall_mem_nil _⟩
    | more h' hu _ _ ih =>
      cases h'.symm.trans h
      obtain ⟨us, rfl, hus⟩ := ih h
      exact ⟨_ :: us, rfl, List.forall_mem_cons.2 ⟨hu, hus⟩⟩
    | concat h' hu hv => cases h'.symm.trans h; exact ⟨_, _, rfl, hu, hv⟩
    | left h' hu => cases h'.symm.trans h; exact .inl hu
    | right h' hu => cases h'.symm.trans h; exact .inr hu
  · intro hu
    cases kind with
    | symbol p c => exact hu ▸ .symbol h
    | epsilon => exact hu ▸ .epsilon h
    | marker p => exact hu ▸ .marker h
    | star i =>
      obtain ⟨us, rfl, hus⟩ := hu
      induction us with
      | nil => exact .none h
      | cons u us ih =>
        obtain ⟨hu, hus⟩ := List.forall_mem_cons.1 hus
        exact .more h hu (ih hus)
    | concat i j =>
      obtain ⟨v, w, rfl, hv, hw⟩ := hu
      exact .concat h hv hw
    | alt i j => exact hu.elim (.left h) (.right h)

namespace Expr

variable {e l r : Expr} {nodes : List Node} {n k : Nat} {u : List Nat}

/-! ## The parts of an expression among the nodes -/

/-- The kind of the last node of an expression whose nodes are numbered from `n`. -/
def rootKind (n : Nat) : Expr → NodeKind
  | symbol p c => .symbol p c
  | epsilon => .epsilon
  | marker p => .marker p
  | star e => .star (n + e.size - 1)
  | concat l r => .concat (n + l.size - 1) (n + l.size + r.size - 1)
  | alt l r => .alt (n + l.size - 1) (n + l.size + r.size - 1)

theorem size_pos (e : Expr) : 0 < e.size := by
  cases e <;> exact Nat.succ_pos _

theorem length_nodes (e : Expr) (n : Nat) : (e.nodes n).length = e.size := by
  induction e generalizing n with
  | symbol p c => rfl
  | epsilon => rfl
  | marker p => rfl
  | star e ih => simp [Expr.nodes, ih, size]
  | concat l r ihl ihr => simp [Expr.nodes, ihl, ihr, size, Nat.add_assoc]
  | alt l r ihl ihr => simp [Expr.nodes, ihl, ihr, size, Nat.add_assoc]

theorem getLast?_nodes (e : Expr) (n : Nat) :
    (e.nodes n).getLast? = some ⟨e.rootKind n, e.borders⟩ := by
  cases e with
  | symbol p c => rfl
  | epsilon => rfl
  | marker p => rfl
  | star e => exact List.getLast?_concat
  | concat l r => exact List.getLast?_concat
  | alt l r => exact List.getLast?_concat

/-- The nodes of an expression stand among others, from the number `n` on. -/
def Stands (nodes : List Node) (n : Nat) (e : Expr) : Prop :=
  ∃ before after, before.length = n ∧ nodes = before ++ (e.nodes n ++ after)

/-- The node of the expression itself is the last one. -/
theorem Stands.getElem?_root (h : Stands nodes n e) :
    nodes[n + e.size - 1]? = some ⟨e.rootKind n, e.borders⟩ := by
  obtain ⟨before, after, rfl, rfl⟩ := h
  have hpos := e.size_pos
  rw [List.getElem?_append_right (by omega), List.getElem?_append_left (by rw [length_nodes]; omega),
    ← getLast?_nodes, List.getLast?_eq_getElem?, length_nodes]
  congr 1
  omega

theorem Stands.star (h : Stands nodes n (star e)) : Stands nodes n e := by
  obtain ⟨before, after, hlength, rfl⟩ := h
  exact ⟨before, _, hlength, by rw [Expr.nodes, List.append_assoc]⟩

/-- Two parts that are written one after the other, with a node for both after them. -/
theorem stands_pair {before after : List Node} {x : Node}
    (h : nodes = before ++
      (l.nodes before.length ++ r.nodes (before.length + l.size) ++ [x] ++ after)) :
    Stands nodes before.length l ∧ Stands nodes (before.length + l.size) r := by
  refine ⟨⟨before, r.nodes (before.length + l.size) ++ [x] ++ after, rfl, ?_⟩,
    ⟨before ++ l.nodes before.length, [x] ++ after, ?_, ?_⟩⟩
  · simp only [h, List.append_assoc]
  · rw [List.length_append, length_nodes]
  · simp only [h, List.append_assoc]

theorem Stands.concat (h : Stands nodes n (concat l r)) :
    Stands nodes n l ∧ Stands nodes (n + l.size) r := by
  obtain ⟨before, after, rfl, h⟩ := h
  exact stands_pair h

theorem Stands.alt (h : Stands nodes n (alt l r)) :
    Stands nodes n l ∧ Stands nodes (n + l.size) r := by
  obtain ⟨before, after, rfl, h⟩ := h
  exact stands_pair h

/-- **The words of the last node are those of the expression.** -/
theorem nodeWord_iff (h : Stands nodes n e) :
    NodeWord nodes (n + e.size - 1) u ↔ u ∈ e.words := by
  induction e generalizing n u with
  | symbol p c => exact nodeWord_iff_spells h.getElem?_root
  | epsilon => exact nodeWord_iff_spells h.getElem?_root
  | marker p => exact nodeWord_iff_spells h.getElem?_root
  | star e ih =>
    rw [nodeWord_iff_spells h.getElem?_root, words, Language.mem_kstar]
    simp only [rootKind, NodeKind.Spells, ih h.star]
  | concat l r ihl ihr =>
    obtain ⟨hl, hr⟩ := h.concat
    rw [nodeWord_iff_spells h.getElem?_root, words, Language.mem_mul]
    simp only [rootKind, NodeKind.Spells, ihl hl, ihr hr]
    constructor
    · intro hu
      obtain ⟨v, w, rfl, hv, hw⟩ := hu
      exact ⟨v, hv, w, hw, rfl⟩
    · intro hu
      obtain ⟨v, hv, w, hw, rfl⟩ := hu
      exact ⟨v, w, rfl, hv, hw⟩
  | alt l r ihl ihr =>
    obtain ⟨hl, hr⟩ := h.alt
    rw [nodeWord_iff_spells h.getElem?_root, words, Language.mem_add]
    simp only [rootKind, NodeKind.Spells, ihl hl, ihr hr]

/-- **Every node is the last one of a part of the expression.** -/
theorem Stands.exists_part (h : Stands nodes n e) (hk : n ≤ k) (hlt : k < n + e.size) :
    ∃ m d, Stands nodes m d ∧ k = m + d.size - 1 := by
  induction e generalizing n with
  | symbol p c => exact ⟨n, _, h, by rw [size] at hlt ⊢; omega⟩
  | epsilon => exact ⟨n, _, h, by rw [size] at hlt ⊢; omega⟩
  | marker p => exact ⟨n, _, h, by rw [size] at hlt ⊢; omega⟩
  | star e ih =>
    by_cases hpart : k < n + e.size
    · exact ih h.star hk hpart
    · exact ⟨n, _, h, by rw [size] at hlt ⊢; omega⟩
  | concat l r ihl ihr =>
    obtain ⟨hl, hr⟩ := h.concat
    by_cases hleft : k < n + l.size
    · exact ihl hl hk hleft
    · by_cases hright : k < n + l.size + r.size
      · exact ihr hr (Nat.le_of_not_lt hleft) hright
      · exact ⟨n, _, h, by rw [size] at hlt ⊢; omega⟩
  | alt l r ihl ihr =>
    obtain ⟨hl, hr⟩ := h.alt
    by_cases hleft : k < n + l.size
    · exact ihl hl hk hleft
    · by_cases hright : k < n + l.size + r.size
      · exact ihr hr (Nat.le_of_not_lt hleft) hright
      · exact ⟨n, _, h, by rw [size] at hlt ⊢; omega⟩

end Expr

/-- The position of a leaf. -/
def Node.position? (node : Node) : Option Nat :=
  match node.kind with
  | .symbol p _ | .marker p => some p
  | _ => none

/-- The leaves of an expression have its positions, from left to right. -/
theorem Expr.filterMap_nodes (e : Expr) (n : Nat) :
    (e.nodes n).filterMap Node.position? = e.positions := by
  induction e generalizing n with
  | symbol p c => rfl
  | epsilon => rfl
  | marker p => rfl
  | star e ih => simp [nodes, ih, positions, Node.position?]
  | concat l r ihl ihr => simp [nodes, ihl, ihr, positions, Node.position?]
  | alt l r ihl ihr => simp [nodes, ihl, ihr, positions, Node.position?]

namespace Tree

variable {t : Tree} {ts : List Token}

/-! ## Trees -/

theorem stands_root (t : Tree) : t.root.Stands t.nodes 0 :=
  ⟨[], [], rfl, by rw [nodes_eq, List.append_nil, List.nil_append]⟩

/-- Reading tokens writes them behind the postfix forms of what is on the stack. -/
theorem postorder_build {stack stack' : List Expr} {next next' : Nat}
    (h : build stack next ts = some (stack', next')) :
    stack'.reverse.flatMap Expr.postorder = stack.reverse.flatMap Expr.postorder ++ ts := by
  fun_induction build stack next ts with
  | case1 =>
    obtain ⟨rfl, -⟩ := Prod.mk.inj (Option.some.inj h)
    rw [List.append_nil]
  | case2 stack next c rest ih => simp [ih h, Expr.postorder]
  | case3 stack next rest ih => simp [ih h, Expr.postorder]
  | case4 next rest e stack ih => simp [ih h, Expr.postorder]
  | case5 => cases h
  | case6 next rest r l stack ih => simp [ih h, Expr.postorder]
  | case7 => cases h
  | case8 next rest r l stack ih => simp [ih h, Expr.postorder]
  | case9 => cases h
  | case10 => cases h

/-- What is read as one expression is its postfix form. -/
theorem postorder_of_ofPostfix (h : ofPostfix ts = .ok t) : t.body.postorder = ts := by
  unfold ofPostfix at h
  split at h
  · next e next hbuild =>
    cases h
    simpa using postorder_build hbuild
  · cases h

/-- The borders of a node tell how its words begin and end. -/
structure BordersExact (nodes : List Node) (n : Nat) (b : Borders) : Prop where
  nullable : b.nullable = true ↔ NodeWord nodes n []
  first : ∀ p, p ∈ b.first ↔ ∃ u, NodeWord nodes n (p :: u)
  last : ∀ p, p ∈ b.last ↔ ∃ u, NodeWord nodes n (u ++ [p])

theorem bordersExact {n : Nat} {node : Node} (h : t.nodes[n]? = some node) :
    BordersExact t.nodes n node.borders := by
  have hlength : t.nodes.length = t.root.size := by rw [nodes_eq, Expr.length_nodes]
  obtain ⟨hlt, -⟩ := List.getElem?_eq_some_iff.1 h
  obtain ⟨m, e, he, rfl⟩ := t.stands_root.exists_part (Nat.zero_le n) (by omega)
  obtain rfl := Option.some.inj (h.symm.trans he.getElem?_root)
  refine ⟨?_, fun p => ?_, fun p => ?_⟩
  · rw [Expr.nodeWord_iff he]
    exact Expr.nullable_iff
  · simp only [Expr.nodeWord_iff he]
    exact Expr.mem_first_iff
  · simp only [Expr.nodeWord_iff he]
    exact Expr.mem_last_iff

/-- **The annotations of a tree are exact.** The tree is that of the tokens, with a position of its
own at each leaf; every node tells how its words begin and end; and the table of followers tells
which positions come one right after the other in a word of the root. -/
theorem annotations_exact (h : ofPostfix ts = .ok t) :
    t.body.postorder = ts ∧
      t.nodes.filterMap Node.position? = List.range' 1 t.markerPosition ∧
      (∀ n node, t.nodes[n]? = some node → BordersExact t.nodes n node.borders) ∧
      ∀ p q, q ∈ t.follow.getD p ∅ ↔
        ∃ u v, NodeWord t.nodes (t.nodes.length - 1) (u ++ p :: q :: v) := by
  refine ⟨postorder_of_ofPostfix h, ?_, fun n node => bordersExact, fun p q => ?_⟩
  · rw [nodes_eq, Expr.filterMap_nodes, (numbered_of_ofPostfix h).positions_root]
  · have hroot : t.nodes.length - 1 = 0 + t.root.size - 1 := by
      rw [nodes_eq, Expr.length_nodes, Nat.zero_add]
    rw [mem_follow, Expr.follows_iff, hroot]
    simp only [Expr.nodeWord_iff t.stands_root]

/-- Repetitions of repetitions that can be empty, before a letter. -/
def nestedStars : Tree :=
  ⟨.concat (.star (.alt (.star (.symbol 1 'a')) .epsilon)) (.symbol 2 'b'), 3⟩

/-- A repetition can be empty or begin again with what it ended with, but not after the letter. -/
theorem annotations_exact_nestedStars :
    ofPostfix [.literal 'a', .op .star, .op .epsilon, .op .alt, .op .star, .literal 'b',
      .op .concat] = .ok nestedStars ∧
      NodeWord nestedStars.nodes 4 [] ∧
      (∃ u v, NodeWord nestedStars.nodes 8 (u ++ 1 :: 1 :: v)) ∧
      ¬ ∃ u v, NodeWord nestedStars.nodes 8 (u ++ 2 :: 1 :: v) := by
  have hread : ofPostfix [.literal 'a', .op .star, .op .epsilon, .op .alt, .op .star, .literal 'b',
    .op .concat] = .ok nestedStars := by decide
  obtain ⟨-, -, hnodes, hfollow⟩ := annotations_exact hread
  refine ⟨hread, ?_, (hfollow 1 1).1 (by decide +kernel), fun h => ?_⟩
  · exact (hnodes 4 _ rfl).nullable.1 (by decide +kernel)
  · exact absurd ((hfollow 2 1).2 h) (by decide +kernel)

end Tree

end Frontend.Regex
