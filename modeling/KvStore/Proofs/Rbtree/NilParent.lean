/-
Two heaps that agree on everything but one parent field.

Most statements of rbtree.c do the same from any two such heaps, because they read other
fields: the search does, and a rotation does when the node it rotates, whose parent is the
only one it reads, is another one.  Giving that node a parent makes the two heaps one.
-/
import KvStore.Base.Alike
import KvStore.Engine.Rbtree

namespace KvStore

/-- The two trees agree on everything but the parent field of the node at `n`. -/
structure SameButParent (n : Ptr) (T T' : Rbtree) : Prop where
  root : T'.root = T.root
  nil : T'.nil = T.nil
  lock : T'.lock = T.lock
  count : T'.nbElements = T.nbElements
  next : T'.mem.next = T.mem.next
  cells : ∀ p, p ≠ n → T'.mem.cells p = T.mem.cells p
  fields : (T'.mem.cells n).map (RbNode.setParent 0) = (T.mem.cells n).map (RbNode.setParent 0)

namespace SameButParent

variable {n : Ptr} {T T' T'' : Rbtree}

theorem refl (n : Ptr) (T : Rbtree) : SameButParent n T T :=
  ⟨rfl, rfl, rfl, rfl, rfl, fun _ _ => rfl, rfl⟩

theorem symm (h : SameButParent n T T') : SameButParent n T' T :=
  ⟨h.root.symm, h.nil.symm, h.lock.symm, h.count.symm, h.next.symm,
    fun p hp => (h.cells p hp).symm, h.fields.symm⟩

theorem trans (h : SameButParent n T T') (h' : SameButParent n T' T'') : SameButParent n T T'' :=
  ⟨h'.root.trans h.root, h'.nil.trans h.nil, h'.lock.trans h.lock, h'.count.trans h.count,
    h'.next.trans h.next, fun p hp => (h'.cells p hp).trans (h.cells p hp),
    h'.fields.trans h.fields⟩

theorem fuel (h : SameButParent n T T') : T'.fuel = T.fuel := by
  unfold Rbtree.fuel
  rw [h.next]

/-- At every address the two have the same, up to the parent field at `n`. -/
theorem cell_cases (h : SameButParent n T T') (p : Ptr) :
    (T.mem.cells p = none ∧ T'.mem.cells p = none) ∨
      ∃ nd q, T.mem.cells p = some nd ∧ T'.mem.cells p = some (nd.setParent q) ∧
        (p ≠ n → nd.setParent q = nd) := by
  by_cases hp : p = n
  · subst hp
    have hfields := h.fields
    cases hT : T.mem.cells p with
    | none =>
        rw [hT, Option.map_none, Option.map_eq_none_iff] at hfields
        exact Or.inl ⟨rfl, hfields⟩
    | some nd =>
        rw [hT, Option.map_some, Option.map_eq_some_iff] at hfields
        obtain ⟨nd', hT', hnd⟩ := hfields
        have hcell := congrArg (RbNode.setParent nd'.parent) hnd
        have hback : nd' = nd.setParent nd'.parent := hcell
        exact Or.inr ⟨nd, nd'.parent, rfl, by rw [← hback, hT'], fun hc => absurd rfl hc⟩
  · have hsame := h.cells p hp
    cases hT : T.mem.cells p with
    | none => exact Or.inl ⟨rfl, hsame.trans hT⟩
    | some nd => exact Or.inr ⟨nd, nd.parent, rfl, hsame.trans hT, fun _ => rfl⟩

/-- Two trees that agree on that parent field too are the same. -/
theorem eq_of_cell (h : SameButParent n T T') (hcell : T'.mem.cells n = T.mem.cells n) : T' = T := by
  have hmem : T'.mem = T.mem := by
    refine Mem.ext (fun p => ?_) h.next
    by_cases hp : p = n
    · rw [hp, hcell]
    · exact h.cells p hp
  obtain ⟨hroot, hnil, hlock, hcount, -, -, -⟩ := h
  cases T
  cases T'
  simp only at hroot hnil hlock hcount hmem
  rw [hroot, hnil, hlock, hcount, hmem]

/-- Another memory for each of the two, with the same agreement. -/
theorem withMem {m m' : Mem RbNode} (h : SameButParent n T T') (hnext : m'.next = m.next)
    (hcells : ∀ p, p ≠ n → m'.cells p = m.cells p)
    (hfields : (m'.cells n).map (RbNode.setParent 0) = (m.cells n).map (RbNode.setParent 0)) :
    SameButParent n { T with mem := m } { T' with mem := m' } :=
  ⟨h.root, h.nil, h.lock, h.count, hnext, hcells, hfields⟩

/-- Writing to one node what the two agree on. -/
theorem write (h : SameButParent n T T') (p : Ptr) {nd nd' : RbNode}
    (hnd : nd'.setParent 0 = nd.setParent 0) (hp : p ≠ n → nd' = nd) :
    SameButParent n { T with mem := T.mem.write p nd } { T' with mem := T'.mem.write p nd' } := by
  refine h.withMem h.next (fun q hq => ?_) ?_
  · by_cases hqp : q = p
    · subst hqp
      simp only [Mem.write, if_true, h.cells q hq, hp hq]
    · rw [Mem.write_of_ne _ hqp, Mem.write_of_ne _ hqp, h.cells q hq]
  · by_cases hnp : n = p
    · subst hnp
      rcases h.cell_cases n with ⟨hT, hT'⟩ | ⟨nd₀, q, hT, hT', -⟩
      · simp only [Mem.write, if_true, hT, hT', Option.map_none]
      · rw [Mem.write_self hT, Mem.write_self hT', Option.map_some, Option.map_some, hnd]
    · rw [Mem.write_of_ne _ hnp, Mem.write_of_ne _ hnp]
      exact h.fields

theorem alloc (h : SameButParent n T T') (nd : RbNode) :
    SameButParent n { T with mem := T.mem.alloc nd } { T' with mem := T'.mem.alloc nd } := by
  refine h.withMem (congrArg (· + 1) h.next) (fun q hq => ?_) ?_
  · simp only [Mem.alloc, h.next, h.cells q hq]
  · simp only [Mem.alloc, h.next]
    split
    · rfl
    · exact h.fields

theorem release (h : SameButParent n T T') (p : Ptr) :
    SameButParent n { T with mem := T.mem.release p } { T' with mem := T'.mem.release p } := by
  refine h.withMem h.next (fun q hq => ?_) ?_
  · simp only [Mem.release, h.cells q hq]
  · simp only [Mem.release]
    split
    · rfl
    · exact h.fields

end SameButParent

/-! ### Statements -/

section Statements

variable {n : Ptr} {T T' : Rbtree}

/-- Going on with the parts of a node that the two have in common. -/
theorem read_alike {β : Type} {p : Ptr} {f : RbNode → Prog Rbtree β} (h : SameButParent n T T')
    (hsame : p = n → ∀ nd q, f (nd.setParent q) = f nd)
    (hf : ∀ nd, T.mem.cells p = some nd → RunsAlike (SameButParent n) (f nd) T T') :
    RunsAlike (SameButParent n) (deref p >>= f) T T' := by
  rcases h.cell_cases p with ⟨hT, hT'⟩ | ⟨nd, q, hT, hT', hnd⟩
  · exact .of_error (run_bind_error (deref_none hT)) (run_bind_error (deref_none hT'))
  · refine .congr (run_bind_ok (deref_run hT)) ((run_bind_ok (deref_run hT')).trans ?_) (hf nd hT)
    by_cases hp : p = n
    · rw [hsame hp]
    · rw [hnd hp]

theorem getChild_alike (h : SameButParent n T T') (d : Dir) (p : Ptr) :
    RunsAlike (SameButParent n) (getChild d p) T T' :=
  read_alike h (fun _ nd q => by cases d <;> rfl) fun _ _ => .pure _ h

theorem getColor_alike (h : SameButParent n T T') (p : Ptr) :
    RunsAlike (SameButParent n) (getColor p) T T' :=
  read_alike h (fun _ _ _ => rfl) fun _ _ => .pure _ h

theorem compareKey_alike (h : SameButParent n T T') (s : List Byte) (p : Ptr) :
    RunsAlike (SameButParent n) (compareKey s p) T T' :=
  read_alike h (fun _ _ _ => rfl) fun _ _ => .liftE _ h

/-- The parent of another node than `n`. -/
theorem getParent_alike (h : SameButParent n T T') {p : Ptr} (hp : p ≠ n) :
    RunsAlike (SameButParent n) (getParent p) T T' :=
  read_alike h (fun hc => absurd hc hp) fun _ _ => .pure _ h

/-- An assignment whose result differs in no more than the parent field. -/
theorem assign_alike (h : SameButParent n T T') (p : Ptr) {f : RbNode → RbNode}
    (hf : ∀ nd q, (f (nd.setParent q)).setParent 0 = (f nd).setParent 0) :
    RunsAlike (SameButParent n) (assign p f) T T' := by
  rcases h.cell_cases p with ⟨hT, hT'⟩ | ⟨nd, q, hT, hT', hnd⟩
  · exact .of_error (run_bind_error (deref_none hT)) (run_bind_error (deref_none hT'))
  · exact .of_ok (assign_run hT f) (assign_run hT' f)
      (h.write p (hf nd q) fun hp => by rw [hnd hp])

theorem setColor_alike (h : SameButParent n T T') (p : Ptr) (c : UInt8) :
    RunsAlike (SameButParent n) (assign p (RbNode.setColor c)) T T' :=
  assign_alike h p fun _ _ => rfl

theorem setParent_alike (h : SameButParent n T T') (p q : Ptr) :
    RunsAlike (SameButParent n) (assign p (RbNode.setParent q)) T T' :=
  assign_alike h p fun _ _ => rfl

theorem setChild_alike (h : SameButParent n T T') (d : Dir) (p q : Ptr) :
    RunsAlike (SameButParent n) (assign p (RbNode.setChild d q)) T T' :=
  assign_alike h p fun _ _ => by cases d <;> rfl

/-- Giving the node at `n` a parent makes the two the same. -/
theorem setParent_same (h : SameButParent n T T') {p : Ptr} {T₁ T₁' : Rbtree}
    (hrun : (assign n (RbNode.setParent p) : Prog Rbtree Unit).run T = .ok ((), T₁))
    (hrun' : (assign n (RbNode.setParent p) : Prog Rbtree Unit).run T' = .ok ((), T₁')) :
    T₁' = T₁ := by
  obtain ⟨T₂, hrun₂, hsame⟩ := (setParent_alike h n p).ok hrun
  rw [hrun'] at hrun₂
  cases hrun₂
  refine hsame.eq_of_cell ?_
  rcases h.cell_cases n with ⟨hT, -⟩ | ⟨nd, q, hT, hT', -⟩
  · rw [assign, run_bind_error (deref_none hT)] at hrun
    cases hrun
  · rw [assign_run hT] at hrun
    rw [assign_run hT'] at hrun'
    cases hrun
    cases hrun'
    exact (Mem.write_self hT' _).trans (Mem.write_self hT _).symm

theorem free_alike (h : SameButParent n T T') (p : Ptr) :
    RunsAlike (SameButParent n) (free p : Prog Rbtree Unit) T T' :=
  read_alike h (fun _ _ _ => rfl) fun _ _ => .modify (h.release p)

theorem mutexLock_alike (h : SameButParent n T T') :
    RunsAlike (SameButParent n) (mutexLock : Prog Rbtree Unit) T T' := by
  cases hm : T.lock.lock with
  | error e =>
      have hrun : ∀ S : Rbtree, S.lock = T.lock →
          (mutexLock : Prog Rbtree Unit).run S = .error e := by
        intro S hS
        refine run_bind_of (run_get S) (run_bind_error ?_)
        show (liftE S.lock.lock : Prog Rbtree Mutex).run S = .error e
        rw [hS, hm]
        rfl
      exact .of_error (hrun T rfl) (hrun T' h.lock)
  | ok mu =>
      have hm' : T'.lock.lock = .ok mu := by rw [h.lock, hm]
      exact .of_ok (mutexLock_run hm) (mutexLock_run hm')
        ⟨h.root, h.nil, rfl, h.count, h.next, h.cells, h.fields⟩

theorem mutexUnlock_alike (h : SameButParent n T T') :
    RunsAlike (SameButParent n) (mutexUnlock : Prog Rbtree Unit) T T' := by
  refine .modify ⟨h.root, h.nil, ?_, h.count, h.next, h.cells, h.fields⟩
  show T'.lock.unlock = T.lock.unlock
  rw [h.lock]

/-! ### Searching and rotating -/

theorem rbtreeSearch_alike (h : SameButParent n T T') (key : CString) :
    RunsAlike (SameButParent n) (rbtreeSearch key) T T' := by
  refine .get (by simp only [h.fuel, h.root]) (.loop_ (fun p T T' h => ?_) _ _ h)
  refine .get (by simp only [h.nil]) (.ite (fun _ => ?_) fun _ => .pure _ h)
  refine (compareKey_alike h _ p).then_ fun ret T T' h => .ite (fun _ => ?_) fun _ => .ite ?_ ?_
  · exact (getChild_alike h .left p).then_ fun l _ _ h => .pure _ h
  · exact fun _ => (getChild_alike h .right p).then_ fun r _ _ h => .pure _ h
  · exact fun _ => .pure _ h

theorem rbtreeRelink_alike (h : SameButParent n T T') (d : Dir) (xp x y : Ptr) :
    RunsAlike (SameButParent n) (rbtreeRelink d xp x y) T T' := by
  refine .get (by simp only [h.nil]) (.ite (fun _ => .modify ?_) fun _ => ?_)
  · exact ⟨rfl, h.nil, h.lock, h.count, h.next, h.cells, h.fields⟩
  · exact (getChild_alike h d xp).then_ fun xpc _ _ h =>
      .ite (fun _ => setChild_alike h _ _ _) fun _ => setChild_alike h _ _ _

/-- A rotation reads no parent but that of the node it rotates. -/
theorem rbtreeRotate_alike (h : SameButParent n T T') (d : Dir) {x : Ptr} (hx : x ≠ n) :
    RunsAlike (SameButParent n) (rbtreeRotate d x) T T' := by
  refine .get (by simp only [whenever, h.nil]) ?_
  refine (getChild_alike h d.flip x).then_ fun y T₁ T₁' h => ?_
  refine (getChild_alike h d y).then_ fun b T₁ T₁' h => ?_
  refine (setChild_alike h d.flip x b).then_ fun _ T₁ T₁' h => ?_
  refine (RunsAlike.whenever h fun _ => setParent_alike h b x).then_ fun _ T₁ T₁' h => ?_
  refine (getParent_alike h hx).then_ fun xp T₁ T₁' h => ?_
  refine (setParent_alike h y xp).then_ fun _ T₁ T₁' h => ?_
  refine (rbtreeRelink_alike h d xp x y).then_ fun _ T₁ T₁' h => ?_
  exact (setChild_alike h d y x).then_ fun _ _ _ h => setParent_alike h x y

end Statements

end KvStore
