/-
Red-black trees and positions in them.

The trees are the usual inductive ones, with any payload.  A position is a
context: the list of frames from the position up to the root, each with the
direction the hole is in, the payload and colour of the node passed and the
sibling subtree.  Everything comes in a left and a right version, so nodes are
mostly built by `Tree.branch`, which takes the direction of its first subtree; one
statement then covers both mirror images.

`Bal t c n` says that `t` is a red-black tree with root colour `c` and black height
`n`, and `CtxBal ctx c n` that `ctx` becomes one, with a black root, when its hole is
filled with such a tree.  The rebalancing lemmas say which shapes a repair may
leave behind; rotations do not appear in them, because a rotation changes neither
the payloads in order (`toList_rotate`) nor the shape beyond what is written out.
-/
import Mathlib.Algebra.Group.Nat.Defs
import Mathlib.Data.List.Basic
import Mathlib.Order.Defs.LinearOrder
import Mathlib.Order.Basic
import Mathlib.Order.Lattice

namespace KvStore

inductive Dir
  | left
  | right
  deriving DecidableEq, Repr

def Dir.flip : Dir → Dir
  | .left => .right
  | .right => .left

theorem Dir.eq_flip_of_ne {d d' : Dir} (h : d' ≠ d) : d' = d.flip := by
  cases d <;> cases d' <;> first | rfl | exact absurd rfl h

inductive Color
  | red
  | black
  deriving DecidableEq, Repr

inductive Tree (α : Type)
  | nil
  | node (c : Color) (l : Tree α) (a : α) (r : Tree α)

namespace Tree

variable {α : Type}

/-- The node whose `d` child is `near`. -/
def branch (d : Dir) (c : Color) (near : Tree α) (a : α) (far : Tree α) : Tree α :=
  match d with
  | .left => node c near a far
  | .right => node c far a near

theorem branch_flip (d : Dir) (c : Color) (t : Tree α) (a : α) (u : Tree α) :
    branch d.flip c t a u = branch d c u a t := by
  cases d <;> rfl

/-- A node can be seen from either side, when its subtrees satisfy the same property. -/
theorem branch_view (d d' : Dir) {c : Color} {t u : Tree α} {a : α} {P : Tree α → Prop}
    (ht : P t) (hu : P u) :
    ∃ t' u', branch d' c t a u = branch d c t' a u' ∧ P t' ∧ P u' := by
  by_cases hd : d' = d
  · subst hd
    exact ⟨t, u, rfl, ht, hu⟩
  · have hflip := Dir.eq_flip_of_ne hd
    subst hflip
    exact ⟨u, t, branch_flip d c t a u, hu, ht⟩

theorem branch_ne_nil (d : Dir) (c : Color) (t u : Tree α) (a : α) : branch d c t a u ≠ nil := by
  cases d <;> intro h <;> cases h

theorem branch_inj {d : Dir} {c c' : Color} {t t' u u' : Tree α} {a a' : α}
    (h : branch d c t a u = branch d c' t' a' u') : t = t' ∧ u = u' := by
  cases d with
  | left => cases h; exact ⟨rfl, rfl⟩
  | right => cases h; exact ⟨rfl, rfl⟩

/-- The payloads in order. -/
def toList : Tree α → List α
  | nil => []
  | node _ l a r => l.toList ++ a :: r.toList

@[simp] theorem toList_nil : (nil : Tree α).toList = [] := rfl

theorem length_branch (d : Dir) (c : Color) (t u : Tree α) (a : α) :
    (branch d c t a u).toList.length = t.toList.length + u.toList.length + 1 := by
  cases d with
  | left =>
      simp only [branch, toList, List.length_append, List.length_cons]
      omega
  | right =>
      simp only [branch, toList, List.length_append, List.length_cons]
      omega

/-- The number of nodes on the longest way down. -/
def depth : Tree α → Nat
  | nil => 0
  | node _ l _ r => max l.depth r.depth + 1

theorem depth_branch (d : Dir) (c : Color) (t u : Tree α) (a : α) :
    (branch d c t a u).depth = max t.depth u.depth + 1 := by
  cases d with
  | left => rfl
  | right => rw [branch, depth, Nat.max_comm]

theorem depth_le_length (t : Tree α) : t.depth ≤ t.toList.length := by
  induction t with
  | nil => exact Nat.le_refl _
  | node c l a r ihl ihr =>
      simp only [depth, toList, List.length_append, List.length_cons]
      omega

/-- A rotation keeps the order. -/
theorem toList_rotate (d : Dir) (c c' e e' : Color) (t u v : Tree α) (a b : α) :
    (branch d c' (branch d c t a u) b v).toList = (branch d e t a (branch d e' u b v)).toList := by
  cases d <;> simp [branch, toList]

/-- The order does not depend on colours. -/
theorem toList_branch_congr (d : Dir) (c c' : Color) (a : α) {t t' u u' : Tree α}
    (ht : t.toList = t'.toList) (hu : u.toList = u'.toList) :
    (branch d c t a u).toList = (branch d c' t' a u').toList := by
  cases d <;> simp [branch, toList, ht, hu]

theorem mem_toList_branch {d : Dir} {c : Color} {t u : Tree α} {a x : α} :
    x ∈ (branch d c t a u).toList ↔ x ∈ t.toList ∨ x = a ∨ x ∈ u.toList := by
  cases d with
  | left => simp [branch, toList]
  | right =>
      simp only [branch, toList, List.mem_append, List.mem_cons]
      tauto

/-! ### Balance -/

/-- A red-black tree with root colour `c` and `n` black nodes on every path. -/
inductive Bal : Tree α → Color → Nat → Prop
  | nil : Bal nil .black 0
  | red {l r : Tree α} {a : α} {n : Nat} (hl : Bal l .black n) (hr : Bal r .black n) :
      Bal (node .red l a r) .red n
  | black {l r : Tree α} {a : α} {c₁ c₂ : Color} {n : Nat} (hl : Bal l c₁ n) (hr : Bal r c₂ n) :
      Bal (node .black l a r) .black (n + 1)

theorem Bal.branch_red {d : Dir} {t u : Tree α} {a : α} {n : Nat}
    (ht : Bal t .black n) (hu : Bal u .black n) : Bal (branch d .red t a u) .red n := by
  cases d with
  | left => exact .red ht hu
  | right => exact .red hu ht

theorem Bal.branch_black {d : Dir} {t u : Tree α} {a : α} {c₁ c₂ : Color} {n : Nat}
    (ht : Bal t c₁ n) (hu : Bal u c₂ n) : Bal (branch d .black t a u) .black (n + 1) := by
  cases d with
  | left => exact .black ht hu
  | right => exact .black hu ht

/-- A red root has two black-rooted subtrees of its own height. -/
theorem Bal.red_inv {t : Tree α} {n : Nat} (h : Bal t .red n) (d : Dir) :
    ∃ near a far, t = branch d .red near a far ∧ Bal near .black n ∧ Bal far .black n := by
  cases h with
  | @red l r a _ hl hr =>
      cases d with
      | left => exact ⟨l, a, r, rfl, hl, hr⟩
      | right => exact ⟨r, a, l, rfl, hr, hl⟩

/-- A black root of positive height has two subtrees one lower. -/
theorem Bal.black_inv {t : Tree α} {n : Nat} (h : Bal t .black (n + 1)) (d : Dir) :
    ∃ near a far c₁ c₂, t = branch d .black near a far ∧ Bal near c₁ n ∧ Bal far c₂ n := by
  cases h with
  | @black l r a c₁ c₂ _ hl hr =>
      cases d with
      | left => exact ⟨l, a, r, c₁, c₂, rfl, hl, hr⟩
      | right => exact ⟨r, a, l, c₂, c₁, rfl, hr, hl⟩

theorem Bal.of_branch_red {d : Dir} {t u : Tree α} {a : α} {c : Color} {n : Nat}
    (h : Bal (branch d .red t a u) c n) : c = .red ∧ Bal t .black n ∧ Bal u .black n := by
  have hc : c = .red := by cases d <;> (cases h; rfl)
  subst hc
  obtain ⟨near, b, far, heq, hnear, hfar⟩ := h.red_inv d
  obtain ⟨rfl, rfl⟩ := branch_inj heq
  exact ⟨rfl, hnear, hfar⟩

theorem Bal.of_branch_black {d : Dir} {t u : Tree α} {a : α} {c : Color} {n : Nat}
    (h : Bal (branch d .black t a u) c n) :
    c = .black ∧ ∃ c₁ c₂ k, n = k + 1 ∧ Bal t c₁ k ∧ Bal u c₂ k := by
  have hc : c = .black ∧ ∃ k, n = k + 1 := by
    cases d <;> (cases h; exact ⟨rfl, _, rfl⟩)
  obtain ⟨rfl, k, rfl⟩ := hc
  obtain ⟨near, b, far, c₁, c₂, heq, hnear, hfar⟩ := h.black_inv d
  obtain ⟨rfl, rfl⟩ := branch_inj heq
  exact ⟨rfl, c₁, c₂, k, rfl, hnear, hfar⟩

/-- The colour of the root; an empty tree counts as black. -/
def color : Tree α → Color
  | nil => .black
  | node c _ _ _ => c

theorem Bal.color_eq {t : Tree α} {c : Color} {n : Nat} (h : Bal t c n) : t.color = c := by
  cases h <;> rfl

/-- Paint the root black. -/
def blacken : Tree α → Tree α
  | nil => nil
  | node _ l a r => node .black l a r

/-- No way down has more than twice as many nodes as black ones, and one if the root is red. -/
theorem Bal.depth_le {t : Tree α} {c : Color} {n : Nat} (h : Bal t c n) :
    t.depth ≤ 2 * n + (if c = .red then 1 else 0) := by
  induction h with
  | nil => exact Nat.zero_le _
  | red _ _ ihl ihr =>
      simp only [reduceCtorEq, if_false] at ihl ihr
      simp only [depth, if_true]
      omega
  | @black _ _ _ c₁ c₂ _ _ _ ihl ihr =>
      have hone : ∀ c : Color, (if c = .red then 1 else 0) ≤ 1 := by
        intro c
        cases c <;> decide
      have hl := hone c₁
      have hr := hone c₂
      simp only [depth, reduceCtorEq, if_false]
      omega

/-- A tree of black height `n` has the nodes of a full tree of that height. -/
theorem Bal.pow_le {t : Tree α} {c : Color} {n : Nat} (h : Bal t c n) :
    2 ^ n ≤ t.toList.length + 1 := by
  induction h with
  | nil => exact Nat.le_refl _
  | red _ _ ihl ihr =>
      simp only [toList, List.length_append, List.length_cons]
      omega
  | black _ _ ihl ihr =>
      simp only [toList, List.length_append, List.length_cons, Nat.pow_succ]
      omega

/-- **The depth of a red-black tree is at most twice the logarithm of its size.** -/
theorem Bal.depth_log {t : Tree α} {n : Nat} (h : Bal t .black n) :
    2 ^ t.depth ≤ (t.toList.length + 1) ^ 2 := by
  have hdepth : t.depth ≤ n * 2 := by
    have := h.depth_le
    simp only [reduceCtorEq, if_false] at this
    omega
  calc 2 ^ t.depth ≤ 2 ^ (n * 2) := Nat.pow_le_pow_right (by decide) hdepth
    _ = (2 ^ n) ^ 2 := Nat.pow_mul ..
    _ ≤ (t.toList.length + 1) ^ 2 := Nat.pow_le_pow_left h.pow_le 2

theorem Bal.blacken {t : Tree α} {c : Color} {n : Nat} (h : Bal t c n) :
    ∃ m, Bal t.blacken .black m := by
  cases h with
  | nil => exact ⟨0, .nil⟩
  | red hl hr => exact ⟨_, .black hl hr⟩
  | black hl hr => exact ⟨_, .black hl hr⟩

end Tree

/-! ### Positions -/

/-- One step on the way up: the hole is the `dir` child of a node. -/
structure Frame (α : Type) where
  dir : Dir
  color : Color
  payload : α
  sibling : Tree α

/-- The frames from a position up to the root. -/
abbrev Ctx (α : Type) := List (Frame α)

namespace Frame

variable {α : Type}

def plug (f : Frame α) (t : Tree α) : Tree α := Tree.branch f.dir f.color t f.payload f.sibling

def before (f : Frame α) : List α :=
  match f.dir with
  | .left => []
  | .right => f.sibling.toList ++ [f.payload]

def after (f : Frame α) : List α :=
  match f.dir with
  | .left => f.payload :: f.sibling.toList
  | .right => []

theorem toList_plug (f : Frame α) (t : Tree α) :
    (f.plug t).toList = f.before ++ t.toList ++ f.after := by
  obtain ⟨d, c, a, u⟩ := f
  cases d <;> simp [plug, before, after, Tree.branch, Tree.toList]

end Frame

namespace Ctx

variable {α : Type}

open KvStore.Tree

/-- The tree with `t` at the position. -/
def fill : Ctx α → Tree α → Tree α
  | [], t => t
  | f :: fs, t => fill fs (f.plug t)

/-- What comes before the position in order. -/
def before : Ctx α → List α
  | [] => []
  | f :: fs => before fs ++ f.before

/-- What comes after the position in order. -/
def after : Ctx α → List α
  | [] => []
  | f :: fs => f.after ++ after fs

theorem fill_append (ctx ctx' : Ctx α) (t : Tree α) :
    fill (ctx ++ ctx') t = fill ctx' (fill ctx t) := by
  induction ctx generalizing t with
  | nil => rfl
  | cons f fs ih => exact ih (f.plug t)

theorem toList_fill (ctx : Ctx α) (t : Tree α) :
    (fill ctx t).toList = before ctx ++ t.toList ++ after ctx := by
  induction ctx generalizing t with
  | nil => simp [fill, before, after]
  | cons f fs ih =>
      unfold fill
      rw [ih, Frame.toList_plug]
      simp [before, after]

theorem toList_fill_congr (ctx : Ctx α) {t t' : Tree α} (h : t.toList = t'.toList) :
    (fill ctx t).toList = (fill ctx t').toList := by
  rw [toList_fill, toList_fill, h]

/-- The way up is no longer than the tree is large. -/
theorem length_le (ctx : Ctx α) (t : Tree α) : ctx.length ≤ (fill ctx t).toList.length := by
  have hframe : ∀ f : Frame α, 1 ≤ f.before.length + f.after.length := by
    rintro ⟨d, c, a, u⟩
    cases d <;> simp [Frame.before, Frame.after]
  have hctx : ctx.length ≤ (before ctx).length + (after ctx).length := by
    induction ctx with
    | nil => simp [before]
    | cons f fs ih =>
        have := hframe f
        simp only [List.length_cons, before, after, List.length_append]
        omega
  rw [toList_fill]
  simp only [List.length_append]
  omega

/-- The frames above a position are on a way down. -/
theorem depth_fill (ctx : Ctx α) (t : Tree α) : ctx.length + t.depth ≤ (fill ctx t).depth := by
  induction ctx generalizing t with
  | nil => rw [List.length_nil, Nat.zero_add]; exact Nat.le_refl _
  | cons f fs ih =>
      have hplug : t.depth + 1 ≤ (f.plug t).depth := by
        rw [Frame.plug, depth_branch]
        exact Nat.succ_le_succ (Nat.le_max_left ..)
      have := ih (f.plug t)
      rw [fill, List.length_cons]
      omega

/-- Every payload is at some position. -/
theorem exists_position {t : Tree α} {a : α} (h : a ∈ t.toList) :
    ∃ ctx c l r, t = fill ctx (node c l a r) := by
  induction t with
  | nil => cases h
  | node c l b r ihl ihr =>
      simp only [toList, List.mem_append, List.mem_cons] at h
      rcases h with h | rfl | h
      · obtain ⟨ctx, c', l', r', rfl⟩ := ihl h
        exact ⟨ctx ++ [⟨.left, c, b, r⟩], c', l', r', by rw [fill_append]; rfl⟩
      · exact ⟨[], c, l, r, rfl⟩
      · obtain ⟨ctx, c', l', r', rfl⟩ := ihr h
        exact ⟨ctx ++ [⟨.right, c, b, l⟩], c', l', r', by rw [fill_append]; rfl⟩

/--
The hole takes a subtree with root colour `c` and black height `n`: filling it with
one gives a red-black tree with a black root.
-/
inductive CtxBal : Ctx α → Color → Nat → Prop
  | root (n : Nat) : CtxBal [] .black n
  | red {d : Dir} {a : α} {u : Tree α} {fs : Ctx α} {n : Nat}
      (hfs : CtxBal fs .red n) (hu : Bal u .black n) : CtxBal (⟨d, .red, a, u⟩ :: fs) .black n
  | black {d : Dir} {a : α} {u : Tree α} {fs : Ctx α} {c c' : Color} {n : Nat}
      (hfs : CtxBal fs .black (n + 1)) (hu : Bal u c' n) :
      CtxBal (⟨d, .black, a, u⟩ :: fs) c n

theorem CtxBal.fill {ctx : Ctx α} {c : Color} {n : Nat} (h : CtxBal ctx c n) :
    ∀ {t : Tree α}, Bal t c n → ∃ m, Bal (fill ctx t) .black m := by
  induction h with
  | root n => intro t ht; exact ⟨n, ht⟩
  | red _ hu ih => intro t ht; exact ih (.branch_red ht hu)
  | black _ hu ih => intro t ht; exact ih (.branch_black ht hu)

/-- Where a red subtree fits, a black one does. -/
theorem CtxBal.of_red {ctx : Ctx α} {n : Nat} (h : CtxBal ctx .red n) : CtxBal ctx .black n := by
  cases h with
  | black hfs hu => exact .black hfs hu

/-- Only under a black node does a red subtree fit. -/
theorem CtxBal.red_inv {ctx : Ctx α} {n : Nat} (h : CtxBal ctx .red n) :
    ∃ d a u fs c', ctx = ⟨d, .black, a, u⟩ :: fs ∧ CtxBal fs .black (n + 1) ∧ Bal u c' n := by
  cases h with
  | black hfs hu => exact ⟨_, _, _, _, _, rfl, hfs, hu⟩

/-- A subtree of a red-black tree: the context that is left and the subtree fit. -/
theorem CtxBal.of_fill : ∀ {ctx : Ctx α} {t : Tree α} {m : Nat},
    Bal (Ctx.fill ctx t) .black m → ∃ c n, Bal t c n ∧ CtxBal ctx c n := by
  intro ctx
  induction ctx with
  | nil => intro t m h; exact ⟨.black, m, h, .root m⟩
  | cons f fs ih =>
      intro t m h
      obtain ⟨d, c, a, u⟩ := f
      obtain ⟨c₀, n, hbal, hctx⟩ := ih h
      cases c with
      | red =>
          obtain ⟨rfl, ht, hu⟩ := hbal.of_branch_red
          exact ⟨.black, n, ht, .red hctx hu⟩
      | black =>
          obtain ⟨rfl, c₁, c₂, k, rfl, ht, hu⟩ := hbal.of_branch_black
          exact ⟨c₁, k, ht, .black hctx hu⟩

/-- Balance does not depend on a payload on the way up. -/
theorem CtxBal.payload {ctx₁ ctx : Ctx α} {d : Dir} {c c' : Color} {a : α} {u : Tree α} {n : Nat}
    (h : CtxBal (ctx₁ ++ ⟨d, c, a, u⟩ :: ctx) c' n) (b : α) :
    CtxBal (ctx₁ ++ ⟨d, c, b, u⟩ :: ctx) c' n := by
  induction ctx₁ generalizing c' n with
  | nil =>
      cases h with
      | red hfs hu => exact .red hfs hu
      | black hfs hu => exact .black hfs hu
  | cons f fs ih =>
      cases h with
      | red hfs hu => exact .red (ih hfs) hu
      | black hfs hu => exact .black (ih hfs) hu

end Ctx

/-! ### Search

Under an order of the payloads, a position splits the tree: what is before it is
smaller and what is after it larger.  Going down one node keeps that.
-/

section Search

variable {α K : Type} [LinearOrder K] (key : α → K)

/-- The payloads' keys are strictly ascending. -/
def Ascending (l : List α) : Prop := l.Pairwise fun a b => key a < key b

/-- `k` belongs at the position. -/
def Splits (ctx : Ctx α) (k : K) : Prop :=
  (∀ x ∈ Ctx.before ctx, key x < k) ∧ ∀ x ∈ Ctx.after ctx, k < key x

variable {key}

theorem splits_nil (k : K) : Splits key ([] : Ctx α) k :=
  ⟨by simp [Ctx.before], by simp [Ctx.after]⟩

theorem splits_left {ctx : Ctx α} {k : K} {c : Color} {l r : Tree α} {a : α}
    (hasc : Ascending key (Ctx.fill ctx (.node c l a r)).toList) (h : Splits key ctx k)
    (hlt : k < key a) : Splits key (⟨.left, c, a, r⟩ :: ctx) k := by
  refine ⟨?_, ?_⟩
  · intro x hx
    simp only [Ctx.before, Frame.before, List.append_nil] at hx
    exact h.1 x hx
  · intro x hx
    simp only [Ctx.after, Frame.after, List.cons_append, List.mem_cons, List.mem_append] at hx
    rw [Ctx.toList_fill, Ascending, List.pairwise_append, List.pairwise_append] at hasc
    simp only [Tree.toList, List.pairwise_append, List.pairwise_cons] at hasc
    rcases hx with rfl | hx | hx
    · exact hlt
    · exact lt_trans hlt (hasc.1.2.1.2.1.1 x hx)
    · exact h.2 x hx

theorem splits_right {ctx : Ctx α} {k : K} {c : Color} {l r : Tree α} {a : α}
    (hasc : Ascending key (Ctx.fill ctx (.node c l a r)).toList) (h : Splits key ctx k)
    (hlt : key a < k) : Splits key (⟨.right, c, a, l⟩ :: ctx) k := by
  refine ⟨?_, ?_⟩
  · intro x hx
    simp only [Ctx.before, Frame.before, List.mem_append, List.mem_singleton] at hx
    rw [Ctx.toList_fill, Ascending, List.pairwise_append, List.pairwise_append] at hasc
    simp only [Tree.toList, List.pairwise_append, List.pairwise_cons] at hasc
    rcases hx with hx | hx | rfl
    · exact h.1 x hx
    · exact lt_trans (hasc.1.2.1.2.2 x hx a (by simp)) hlt
    · exact hlt
  · intro x hx
    simp only [Ctx.after, Frame.after, List.nil_append] at hx
    exact h.2 x hx

/-- At an empty position no payload has the key. -/
theorem Splits.absent {ctx : Ctx α} {k : K} (h : Splits key ctx k) :
    ∀ x ∈ (Ctx.fill ctx .nil).toList, key x ≠ k := by
  intro x hx
  rw [Ctx.toList_fill] at hx
  simp only [Tree.toList_nil, List.append_nil, List.mem_append] at hx
  rcases hx with hx | hx
  · exact ne_of_lt (h.1 x hx)
  · exact ne_of_gt (h.2 x hx)

/-- A payload with the key goes to the position in order. -/
theorem Splits.ascending_insert {ctx : Ctx α} {k : K} {a : α} {c : Color}
    (h : Splits key ctx k) (hasc : Ascending key (Ctx.fill ctx .nil).toList) (ha : key a = k) :
    Ascending key (Ctx.fill ctx (.node c .nil a .nil)).toList := by
  rw [Ctx.toList_fill] at hasc ⊢
  simp only [Tree.toList, List.append_nil, List.nil_append, Ascending, List.pairwise_append,
    List.pairwise_cons] at hasc ⊢
  refine ⟨⟨hasc.1, by simp, ?_⟩, hasc.2.1, ?_⟩
  · intro x hx y hy
    simp only [List.mem_singleton] at hy
    rw [hy, ha]
    exact h.1 x hx
  · intro x hx y hy
    rcases List.mem_append.mp hx with hx | hx
    · exact hasc.2.2 x hx y hy
    · rw [List.mem_singleton.mp hx, ha]
      exact h.2 y hy

end Search

end KvStore
