import FerricStore.Lib.BPlusTree.Basic

/-!
# The invariant of a counted B+ tree

`Chain P hi lo keys children` says that the separators cut the interval from `lo` up to `hi` into
one interval for each child, and that every child satisfies `P` on its own. Replacing some
neighboring children by a chain over the same interval gives a chain again
(`chain_context`); every edit of a branch is an instance of it. `Inv` is the invariant of a tree
and `Weak` what remains of it for a node that has just lost an entry: a leaf may be empty and a
branch may have one child.
-/

namespace FerricStore.BPlusTree

open List

variable {κ ν β : Type} [LinearOrder κ]

/-- The key lies in the interval from `lo` up to `hi`. -/
structure Bounded (lo : WithBot κ) (hi : WithTop κ) (key : κ) : Prop where
  lower : lo ≤ key
  upper : (key : WithTop κ) < hi

variable {key : κ} {hi : WithTop κ} {lo : WithBot κ}

theorem Bounded.widen {lo' : WithBot κ} {hi' : WithTop κ} (h : Bounded lo hi key)
    (hlo : lo' ≤ lo) (hhi : hi ≤ hi') : Bounded lo' hi' key :=
  ⟨hlo.trans h.lower, h.upper.trans_le hhi⟩

/-- The separators cut an interval into one for each child. -/
inductive Chain (P : WithBot κ → WithTop κ → β → Prop) (hi : WithTop κ) :
    WithBot κ → List κ → List β → Prop where
  | last {lo : WithBot κ} {child : β} : P lo hi child → Chain P hi lo [] [child]
  | cons {lo : WithBot κ} {sep : κ} {seps : List κ} {child : β} {children : List β} :
      P lo sep child → Chain P hi sep seps children →
      Chain P hi lo (sep :: seps) (child :: children)

/-- The lower bound of the child at a position. -/
def boundBefore (lo : WithBot κ) : List κ → Nat → WithBot κ
  | _, 0 => lo
  | [], _ + 1 => lo
  | sep :: seps, i + 1 => boundBefore sep seps i

/-- The upper bound of the child at a position. -/
def boundAfter (hi : WithTop κ) : List κ → Nat → WithTop κ
  | [], _ => hi
  | sep :: _, 0 => sep
  | _ :: seps, i + 1 => boundAfter hi seps i

section Chains

variable {P : WithBot κ → WithTop κ → β → Prop} {hi : WithTop κ} {lo : WithBot κ}
  {keys : List κ} {children : List β}

omit [LinearOrder κ] in
/-- There is one child more than separators. -/
theorem Chain.length_eq (h : Chain P hi lo keys children) : children.length = keys.length + 1 := by
  induction h with
  | last _ => rfl
  | cons _ _ ih => rw [length_cons, ih, length_cons]

omit [LinearOrder κ] in
/-- Two chains with a separator between them make one. -/
theorem Chain.append {sep : κ} {keys keys' : List κ} {children children' : List β}
    (h : Chain P sep lo keys children) (h' : Chain P hi sep keys' children') :
    Chain P hi lo (keys ++ sep :: keys') (children ++ children') := by
  induction h with
  | last hlast => exact .cons hlast h'
  | cons hfirst _ ih => exact .cons hfirst ih

omit [LinearOrder κ] in
/-- A chain is cut at any of its separators. -/
theorem Chain.cut {sep : κ} {keys keys' : List κ}
    (h : Chain P hi lo (keys ++ sep :: keys') children) :
    ∃ left right, children = left ++ right ∧ left.length = keys.length + 1 ∧
      Chain P sep lo keys left ∧ Chain P hi sep keys' right := by
  induction keys generalizing lo children with
  | nil =>
    cases h with
    | cons hfirst hrest => exact ⟨[_], _, rfl, rfl, .last hfirst, hrest⟩
  | cons key keys ih =>
    cases h with
    | cons hfirst hrest =>
      obtain ⟨left, right, rfl, hlen, hleft, hright⟩ := ih hrest
      exact ⟨_ :: left, right, rfl, by rw [length_cons, hlen, length_cons],
        .cons hfirst hleft, hright⟩

/-- A chain over a smaller interval is a chain over a larger one. -/
theorem Chain.widen {lo' : WithBot κ} {hi' : WithTop κ}
    (hP : ∀ a b a' b' c, a' ≤ a → b ≤ b' → P a b c → P a' b' c) (hlo : lo' ≤ lo) (hhi : hi ≤ hi')
    (h : Chain P hi lo keys children) : Chain P hi' lo' keys children := by
  induction h generalizing lo' with
  | last hlast => exact .last (hP _ _ _ _ _ hlo hhi hlast)
  | cons hfirst _ ih => exact .cons (hP _ _ _ _ _ hlo le_rfl hfirst) (ih le_rfl)

omit [LinearOrder κ] in
/-- What holds of every child may be strengthened child by child. -/
theorem Chain.mono {Q : WithBot κ → WithTop κ → β → Prop}
    (h : Chain P hi lo keys children) (hPQ : ∀ a b, ∀ c ∈ children, P a b c → Q a b c) :
    Chain Q hi lo keys children := by
  induction h with
  | last hlast => exact .last (hPQ _ _ _ mem_cons_self hlast)
  | cons hfirst _ ih =>
    exact .cons (hPQ _ _ _ mem_cons_self hfirst)
      (ih fun a b c hc => hPQ a b c (mem_cons_of_mem _ hc))

omit [LinearOrder κ] in
/-- Every child of a chain has an interval of its own. -/
theorem Chain.forall_mem (h : Chain P hi lo keys children) :
    ∀ child ∈ children, ∃ a b, P a b child := by
  induction h with
  | last hlast => exact forall_mem_singleton.mpr ⟨_, _, hlast⟩
  | cons hfirst _ ih => exact forall_mem_cons.mpr ⟨⟨_, _, hfirst⟩, ih⟩

omit [LinearOrder κ] in
/-- Neighboring children form a chain over their own interval, and any chain over that interval
may take their place. -/
theorem chain_context (before mid after : List β) (hmid : mid ≠ [])
    (h : Chain P hi lo keys (before ++ (mid ++ after))) :
    Chain P (boundAfter hi keys (before.length + (mid.length - 1)))
        (boundBefore lo keys before.length)
        ((keys.drop before.length).take (mid.length - 1)) mid ∧
      ∀ seps children, Chain P (boundAfter hi keys (before.length + (mid.length - 1)))
          (boundBefore lo keys before.length) seps children →
        Chain P hi lo
          (keys.take before.length ++ (seps ++ keys.drop (before.length + (mid.length - 1))))
          (before ++ (children ++ after)) := by
  induction before generalizing lo keys with
  | nil =>
    have hpos : 0 < mid.length := length_pos_of_ne_nil hmid
    have hlen := h.length_eq
    rw [nil_append, length_append] at hlen
    simp only [length_nil, Nat.zero_add, drop_zero, take_zero, nil_append, boundBefore]
    cases after with
    | nil =>
      have hkeys : mid.length - 1 = keys.length := by
        rw [length_nil] at hlen
        omega
      have hbound : ∀ keys : List κ, boundAfter hi keys keys.length = hi := by
        intro keys
        induction keys with
        | nil => rfl
        | cons _ _ ih => exact ih
      rw [hkeys, hbound, take_length, drop_length]
      simp only [append_nil] at h ⊢
      exact ⟨h, fun _ _ hnew => hnew⟩
    | cons next after =>
      have hin : mid.length - 1 < keys.length := by
        rw [length_cons] at hlen
        omega
      have hbound : ∀ (keys : List κ) (i : Nat) (hi' : i < keys.length),
          boundAfter hi keys i = keys[i] := by
        intro keys
        induction keys with
        | nil => intro i hi'; cases hi'
        | cons _ _ ih =>
          intro i hi'
          cases i with
          | zero => rfl
          | succ i => exact ih i (by simpa using hi')
      have hsplit : keys = keys.take (mid.length - 1) ++
          keys[mid.length - 1] :: keys.drop (mid.length - 1 + 1) := by
        rw [getElem_cons_drop, take_append_drop]
      rw [nil_append, hsplit] at h
      obtain ⟨left, right, hchildren, hleft, hmidChain, hrest⟩ := h.cut
      rw [length_take, Nat.min_eq_left (by omega)] at hleft
      obtain ⟨rfl, rfl⟩ := append_inj hchildren (by omega)
      rw [hbound _ _ hin]
      refine ⟨hmidChain, fun seps children hnew => ?_⟩
      rw [← getElem_cons_drop (h := hin)]
      exact hnew.append hrest
  | cons first before ih =>
    rw [cons_append] at h
    rcases keys with _ | ⟨sep, seps⟩
    · have hlen := h.length_eq
      simp only [length_cons, length_append, length_nil] at hlen
      have := length_pos_of_ne_nil hmid
      omega
    · cases h with
      | cons hfirst hrest =>
        obtain ⟨hmidChain, hcontext⟩ := ih hrest
        rw [length_cons, Nat.add_right_comm]
        exact ⟨hmidChain, fun _ _ hnew => .cons hfirst (hcontext _ _ hnew)⟩

omit [LinearOrder κ] in
/-- One child keeps to its own interval, and any chain over that interval may take its place. -/
theorem chain_child {before after : List β} {child : β}
    (h : Chain P hi lo keys (before ++ child :: after)) :
    P (boundBefore lo keys before.length) (boundAfter hi keys before.length) child ∧
      ∀ seps children,
        Chain P (boundAfter hi keys before.length) (boundBefore lo keys before.length) seps
          children →
        Chain P hi lo (keys.take before.length ++ (seps ++ keys.drop before.length))
          (before ++ (children ++ after)) := by
  obtain ⟨hmid, hcontext⟩ := chain_context before [child] after (cons_ne_nil _ _) h
  refine ⟨?_, hcontext⟩
  cases hmid with
  | last hlast => exact hlast

end Chains

/-! ## Routing a key -/

/-- One separator more. -/
theorem childIndex_cons (sep : κ) (seps : List κ) (key : κ) :
    childIndex (sep :: seps) key = if sep ≤ key then childIndex seps key + 1 else 0 := by
  unfold childIndex
  by_cases hle : sep ≤ key
  · simp [hle]
  · simp [hle]

/-- A key lies within the bounds of the child it is routed to. -/
theorem childIndex_bounded (seps : List κ) (h : Bounded lo hi key) :
    Bounded (boundBefore lo seps (childIndex seps key)) (boundAfter hi seps (childIndex seps key))
      key := by
  induction seps generalizing lo with
  | nil => exact h
  | cons sep seps ih =>
    rw [childIndex_cons]
    by_cases hle : sep ≤ key
    · rw [if_pos hle]
      exact ih ⟨WithBot.coe_le_coe.mpr hle, h.upper⟩
    · rw [if_neg hle]
      exact ⟨h.lower, WithTop.coe_lt_coe.mpr (not_le.mp hle)⟩

variable {i : Nat}

omit [LinearOrder κ] in
/-- The positions before the end of the first part are those whose element satisfies the test, when
the test passes down the list. -/
theorem lt_length_takeWhile_iff {α : Type} {test : α → Bool} {l : List α}
    (h : l.Pairwise fun a b => test b = true → test a = true) {a : α}
    (ha : l[i]? = some a) : i < (l.takeWhile test).length ↔ test a = true := by
  induction l generalizing i with
  | nil => cases ha
  | cons b l ih =>
    obtain ⟨hfirst, hrest⟩ := pairwise_cons.mp h
    cases i with
    | zero =>
      obtain rfl : b = a := Option.some.inj ha
      by_cases hb : test b = true
      · simp [hb]
      · simp [hb]
    | succ i =>
      rw [List.getElem?_cons_succ] at ha
      by_cases hb : test b = true
      · rw [takeWhile_cons_of_pos hb, length_cons, Nat.succ_lt_succ_iff]
        exact ih hrest ha
      · rw [takeWhile_cons_of_neg hb]
        have hmem := mem_of_getElem? ha
        exact ⟨fun hlt => absurd hlt (Nat.not_lt_zero _), fun ht => absurd (hfirst a hmem ht) hb⟩

variable {keys : List κ}

section

variable (h : keys.Pairwise (· < ·)) (key : κ) {k : κ} (hk : keys[i]? = some k)
include h hk

/-- The positions before the place of a key are those with smaller keys. -/
theorem lt_position_iff : i < position keys key ↔ k < key := by
  have hdown : keys.Pairwise fun a b => decide (b < key) = true → decide (a < key) = true :=
    h.imp fun hab => by simpa using hab.trans
  rw [position, lt_length_takeWhile_iff hdown hk, decide_eq_true_eq]

/-- The positions before the child of a key are those with separators at or below it. -/
theorem lt_childIndex_iff : i < childIndex keys key ↔ k ≤ key := by
  have hdown : keys.Pairwise fun a b => decide (b ≤ key) = true → decide (a ≤ key) = true :=
    h.imp fun hab => by simpa using hab.le.trans
  rw [childIndex, lt_length_takeWhile_iff hdown hk, decide_eq_true_eq]

end

section Routing

variable {P : WithBot κ → WithTop κ → β → Prop} {hi : WithTop κ} {lo : WithBot κ}
  {contents : β → List (κ × ν)}

/-- Children are not empty and keep to their interval. -/
def Confines (P : WithBot κ → WithTop κ → β → Prop) (contents : β → List (κ × ν)) : Prop :=
  ∀ a b c, P a b c → contents c ≠ [] ∧ ∀ e ∈ contents c, Bounded a b e.1

variable {children : List β}

section

variable (hP : Confines P contents)
include hP

section

variable (h : Chain P hi lo keys children)
include h

/-- A chain keeps to its interval. -/
theorem Chain.bounded : ∀ e ∈ children.flatMap contents, Bounded lo hi e.1 := by
  induction h with
  | @last lo child hlast => simpa using (hP _ _ _ hlast).2
  | @cons lo sep seps child children hfirst hrest ih =>
    obtain ⟨hne, hin⟩ := hP _ _ _ hfirst
    intro e he
    rw [flatMap_cons, mem_append] at he
    -- the first child is not empty, so the bounds of the others lie within the whole interval
    obtain ⟨x, hx⟩ := exists_mem_of_ne_nil _ hne
    have hlow : lo ≤ sep := (hin x hx).lower.trans
      (WithBot.coe_le_coe.mpr (WithTop.coe_lt_coe.mp (hin x hx).upper).le)
    have hsep : (sep : WithTop κ) ≤ hi := by
      cases hrest with
      | last hlast =>
        obtain ⟨hne', hin'⟩ := hP _ _ _ hlast
        obtain ⟨y, hy⟩ := exists_mem_of_ne_nil _ hne'
        exact (WithTop.coe_le_coe.mpr (WithBot.coe_le_coe.mp (hin' y hy).lower)).trans
          (hin' y hy).upper.le
      | @cons _ _ _ child' children' hfirst' hrest' =>
        obtain ⟨hne', -⟩ := hP _ _ _ hfirst'
        obtain ⟨y, hy⟩ := exists_mem_of_ne_nil _ hne'
        have hmem : y ∈ (child' :: children').flatMap contents := by
          rw [flatMap_cons, mem_append]
          exact .inl hy
        have hy' := ih y hmem
        exact (WithTop.coe_le_coe.mpr (WithBot.coe_le_coe.mp hy'.lower)).trans hy'.upper.le
    rcases he with he | he
    · exact (hin e he).widen le_rfl hsep
    · exact (ih e he).widen hlow le_rfl

/-- A chain is not empty. -/
theorem Chain.ne_nil : children.flatMap contents ≠ [] := by
  cases h with
  | last hlast => simpa using (hP _ _ _ hlast).1
  | cons hfirst _ =>
    exact append_ne_nil_of_left_ne_nil (hP _ _ _ hfirst).1 _

/-- A chain's contents are sorted when its children's are. -/
theorem Chain.sorted (hsorted : ∀ a b c, P a b c → Entries.Sorted (contents c))
    : Entries.Sorted (children.flatMap contents) := by
  induction h with
  | last hlast => simpa using hsorted _ _ _ hlast
  | cons hfirst hrest ih =>
    refine Entries.sorted_append.mpr ⟨hsorted _ _ _ hfirst, ih, fun a ha b hb => ?_⟩
    have hupper := WithTop.coe_lt_coe.mp ((hP _ _ _ hfirst).2 a ha).upper
    have hlower := WithBot.coe_le_coe.mp (hrest.bounded hP b hb).lower
    exact hupper.trans_le hlower

/-- The separators of a chain are in order, above its lower bound. -/
theorem Chain.keys_sorted : keys.Pairwise (· < ·) ∧ ∀ key ∈ keys, lo < key := by
  induction h with
  | last _ => exact ⟨.nil, by simp⟩
  | @cons lo sep seps child children hfirst _ ih =>
    obtain ⟨hne, hin⟩ := hP _ _ _ hfirst
    obtain ⟨e, he⟩ := exists_mem_of_ne_nil _ hne
    have hlow : lo < sep := (hin e he).lower.trans_lt
      (WithBot.coe_lt_coe.mpr (WithTop.coe_lt_coe.mp (hin e he).upper))
    refine ⟨pairwise_cons.mpr ⟨fun key hkey => WithBot.coe_lt_coe.mp (ih.2 key hkey), ih.1⟩,
      fun key hkey => ?_⟩
    rcases mem_cons.mp hkey with rfl | hkey
    · exact hlow
    · exact hlow.trans (ih.2 key hkey)

/-- What stands before the child a key is routed to lies below the key. -/
theorem Chain.before_lt :
    ∀ e ∈ (children.take (childIndex keys key)).flatMap contents, e.1 < key := by
  induction h with
  | last _ =>
    intro e he
    simp [childIndex] at he
  | cons hfirst _ ih =>
    intro e he
    rw [childIndex_cons] at he
    split_ifs at he with hle
    · rw [take_succ_cons, flatMap_cons, mem_append] at he
      rcases he with he | he
      · exact (WithTop.coe_lt_coe.mp ((hP _ _ _ hfirst).2 e he).upper).trans_le hle
      · exact ih e he
    · simp at he

/-- What stands after the child a key is routed to lies above the key. -/
theorem Chain.after_gt :
    ∀ e ∈ (children.drop (childIndex keys key + 1)).flatMap contents, key < e.1 := by
  induction h with
  | last _ =>
    intro e he
    simp [childIndex] at he
  | cons hfirst hrest ih =>
    intro e he
    rw [childIndex_cons] at he
    split_ifs at he with hle
    · exact ih e he
    · exact (not_le.mp hle).trans_le (WithBot.coe_le_coe.mp (hrest.bounded hP e he).lower)

end

end

end Routing

/-! ## The invariant -/

/-- The entries of a tree in order. -/
def toList : (n : Nat) → Tree κ ν n → List (κ × ν)
  | 0, leaf => (Leaf.keys leaf).zip (Leaf.values leaf)
  | n + 1, branch => (Branch.children branch).flatMap (toList n)

/-- The number of keys of a tree. -/
def size (n : Nat) (tree : Tree κ ν n) : Nat :=
  (toList n tree).length

/-- The invariant of a tree whose keys lie between the bounds. -/
def Inv : (n : Nat) → WithBot κ → WithTop κ → Tree κ ν n → Prop
  | 0, lo, hi, leaf =>
    (Leaf.keys leaf).length = (Leaf.values leaf).length ∧ Leaf.keys leaf ≠ [] ∧
      (Leaf.keys leaf).Pairwise (· < ·) ∧ ∀ key ∈ Leaf.keys leaf, Bounded lo hi key
  | n + 1, lo, hi, branch =>
    Chain (Inv n) hi lo (Branch.keys branch) (Branch.children branch) ∧
      Branch.counts branch = (Branch.children branch).map (size n) ∧
      2 ≤ (Branch.children branch).length

/-- A node that has just lost an entry: a leaf may be empty, a branch may have one child. -/
def Weak : (n : Nat) → WithBot κ → WithTop κ → Tree κ ν n → Prop
  | 0, lo, hi, leaf =>
    (Leaf.keys leaf).length = (Leaf.values leaf).length ∧
      (Leaf.keys leaf).Pairwise (· < ·) ∧ ∀ key ∈ Leaf.keys leaf, Bounded lo hi key
  | n + 1, lo, hi, branch =>
    Chain (Inv n) hi lo (Branch.keys branch) (Branch.children branch) ∧
      Branch.counts branch = (Branch.children branch).map (size n)

/-- The invariant of a whole tree. -/
def RootInv (root : Root κ ν) : Prop :=
  ∀ n tree, root = some ⟨n, tree⟩ → Inv n ⊥ ⊤ tree

/-- The entries of a whole tree. -/
def contents (root : Root κ ν) : List (κ × ν) :=
  root.elim [] fun ⟨n, tree⟩ => toList n tree

variable {n : Nat}

/-- The invariant without what a removal may break. -/
theorem Inv.weak {tree : Tree κ ν n} (h : Inv n lo hi tree) : Weak n lo hi tree := by
  cases n with
  | zero => exact ⟨h.1, h.2.2⟩
  | succ n => exact ⟨h.1, h.2.1⟩

variable {leaf : Leaf κ ν}

omit [LinearOrder κ] in
theorem map_fst_leaf (h : leaf.keys.length = leaf.values.length) :
    (leaf.keys.zip leaf.values).map Prod.fst = leaf.keys :=
  map_fst_zip (by omega)

theorem sorted_leaf (hlen : leaf.keys.length = leaf.values.length)
    (h : leaf.keys.Pairwise (· < ·)) : Entries.Sorted (leaf.keys.zip leaf.values) := by
  rw [← map_fst_leaf hlen, pairwise_map] at h
  exact h

omit [LinearOrder κ] in
theorem mem_keys_of_mem_zip {e : κ × ν} (h : e ∈ leaf.keys.zip leaf.values) : e.1 ∈ leaf.keys :=
  (of_mem_zip h).1

variable (κ ν) in
/-- A tree is not empty, keeps to its interval and is sorted. -/
theorem Inv.confined (n : Nat) : Confines (fun a b (c : Tree κ ν n) => Inv n a b c) (toList n) ∧
      ∀ a b (c : Tree κ ν n), Inv n a b c → Entries.Sorted (toList n c) := by
  induction n with
  | zero =>
    refine ⟨fun a b leaf h => ⟨?_, ?_⟩, fun a b leaf h => sorted_leaf h.1 h.2.2.1⟩
    · intro hnil
      have hkeys := map_fst_leaf h.1
      rw [show leaf.keys.zip leaf.values = [] from hnil] at hkeys
      exact h.2.1 hkeys.symm
    · intro e he
      exact h.2.2.2 _ (mem_keys_of_mem_zip he)
  | succ n ih =>
    obtain ⟨hconfines, hsorted⟩ := ih
    exact ⟨fun a b branch h => ⟨h.1.ne_nil hconfines, h.1.bounded hconfines⟩,
      fun a b branch h => h.1.sorted hconfines hsorted⟩

/-- The invariant holds for wider bounds as well. -/
theorem Inv.widen : ∀ {lo lo' : WithBot κ} {hi hi' : WithTop κ} {tree : Tree κ ν n},
    lo' ≤ lo → hi ≤ hi' → Inv n lo hi tree → Inv n lo' hi' tree := by
  induction n with
  | zero =>
    intro lo lo' hi hi' leaf hlo hhi h
    exact ⟨h.1, h.2.1, h.2.2.1, fun key hkey => (h.2.2.2 key hkey).widen hlo hhi⟩
  | succ n ih =>
    intro lo lo' hi hi' branch hlo hhi h
    exact ⟨h.1.widen (fun a b a' b' c ha hb hc => ih ha hb hc) hlo hhi, h.2⟩

/-- Not a branch with one child. -/
def Many : (n : Nat) → Tree κ ν n → Prop
  | 0, _ => True
  | _ + 1, branch => 2 ≤ (Branch.children branch).length

/-- A weak node that is not empty and not a branch with one child satisfies the invariant. -/
theorem Weak.inv {tree : Tree κ ν n}
    (h : Weak n lo hi tree) (hne : toList n tree ≠ []) (hmany : Many n tree) :
    Inv n lo hi tree := by
  cases n with
  | zero =>
    refine ⟨h.1, fun hkeys => hne ?_, h.2⟩
    show (Leaf.keys tree).zip (Leaf.values tree) = []
    rw [hkeys, zip_nil_left]
  | succ n => exact ⟨h.1, h.2, hmany⟩

end FerricStore.BPlusTree
