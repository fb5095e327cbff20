import ShadOS.Tasking.Source

/-! # Descriptors and initial stacks in memory

What each write of the scheduler does to the fields of the descriptors, and
which bytes it leaves alone.
-/

namespace ShadOS.Tasking
open Machine

def descriptor (t : ℕ) : Span := ⟨t, taskSize⟩
def stackSpan (stack : ℕ) : Span := ⟨stack, taskStackSize⟩

variable {m m' : Mem} {t x v : ℕ} {s : TaskState}

theorem descriptor_has : (descriptor t).Has x ↔ t ≤ x ∧ x < t + 24 := Iff.rfl

theorem stackSpan_has : (stackSpan t).Has x ↔ t ≤ x ∧ x < t + 8192 := Iff.rfl

theorem TaskState.code_lt (s : TaskState) : s.code < 3 := by
  cases s <;> decide

section fields

theorem stackBaseOf_congr (h : ∀ x, (descriptor t).Has x → m' x = m x) :
    stackBaseOf m' t = stackBaseOf m t :=
  readWord_congr (fun x _ _ => h x (by rw [descriptor_has]; omega))

theorem stateOf_congr (h : ∀ x, (descriptor t).Has x → m' x = m x) : stateOf m' t = stateOf m t :=
  readWord_congr (fun x _ _ => h x (by rw [descriptor_has]; omega))

theorem nextOf_congr (h : ∀ x, (descriptor t).Has x → m' x = m x) : nextOf m' t = nextOf m t :=
  readWord_congr (fun x _ _ => h x (by rw [descriptor_has]; omega))

theorem setState_outside (h : ¬ (descriptor t).Has x) : setState m t s x = m x :=
  writeWord_outside (by rw [descriptor_has] at h; omega)

theorem setEsp_outside (h : ¬ (descriptor t).Has x) : setEsp m t v x = m x :=
  writeWord_outside (by rw [descriptor_has] at h; omega)

theorem setNext_outside (h : ¬ (descriptor t).Has x) : setNext m t v x = m x :=
  writeWord_outside (by rw [descriptor_has] at h; omega)

@[simp] theorem stateOf_setState : stateOf (setState m t s) t = s.code :=
  (readWord_writeWord_same m _ _).trans (u32_of_lt (by have := s.code_lt; omega))

@[simp] theorem nextOf_setState : nextOf (setState m t s) t = nextOf m t :=
  readWord_writeWord_of_disjoint (by omega)
@[simp] theorem stackBaseOf_setState : stackBaseOf (setState m t s) t = stackBaseOf m t :=
  readWord_writeWord_of_disjoint (by omega)

@[simp] theorem stateOf_setEsp : stateOf (setEsp m t v) t = stateOf m t :=
  readWord_writeWord_of_disjoint (by omega)
@[simp] theorem nextOf_setEsp : nextOf (setEsp m t v) t = nextOf m t :=
  readWord_writeWord_of_disjoint (by omega)
@[simp] theorem stackBaseOf_setEsp : stackBaseOf (setEsp m t v) t = stackBaseOf m t :=
  readWord_writeWord_of_disjoint (by omega)

@[simp] theorem nextOf_setNext : nextOf (setNext m t v) t = u32 v := readWord_writeWord_same m _ v
@[simp] theorem stateOf_setNext : stateOf (setNext m t v) t = stateOf m t :=
  readWord_writeWord_of_disjoint (by omega)
@[simp] theorem stackBaseOf_setNext : stackBaseOf (setNext m t v) t = stackBaseOf m t :=
  readWord_writeWord_of_disjoint (by omega)

theorem nextOf_lt : nextOf m t < 2 ^ 32 := readWord_lt m _

end fields

section fill
variable {esp base entry pid : ℕ}

theorem fillTask_outside (h : ¬ (descriptor t).Has x) :
    fillTask m t esp base entry pid s x = m x := by
  rw [descriptor_has] at h
  unfold fillTask setState setPid setEntry setStackBase setEsp
  rw [writeWord_outside (by omega), writeWord_outside (by omega), writeWord_outside (by omega),
    writeWord_outside (by omega), writeWord_outside (by omega)]

@[simp] theorem stateOf_fillTask : stateOf (fillTask m t esp base entry pid s) t = s.code :=
  stateOf_setState

@[simp] theorem stackBaseOf_fillTask :
    stackBaseOf (fillTask m t esp base entry pid s) t = u32 base := by
  unfold stackBaseOf fillTask setState setPid setEntry
  rw [readWord_writeWord_of_disjoint (by omega), readWord_writeWord_of_disjoint (by omega),
    readWord_writeWord_of_disjoint (by omega)]
  exact readWord_writeWord_same _ _ _

@[simp] theorem espOf_fillTask : espOf (fillTask m t esp base entry pid s) t = u32 esp := by
  unfold espOf fillTask setState setPid setEntry setStackBase
  rw [readWord_writeWord_of_disjoint (by omega), readWord_writeWord_of_disjoint (by omega),
    readWord_writeWord_of_disjoint (by omega), readWord_writeWord_of_disjoint (by omega)]
  exact readWord_writeWord_same _ _ _

end fill

section install
variable {tramp cur stack entry pid sp : ℕ}

/-- The stack pointer of a task that never ran lies twenty bytes below the top of its stack. -/
theorem initialSp_eq (h : stack + taskStackSize ≤ 2 ^ 32) :
    initialSp stack = stack + taskStackSize - 20 := by
  rcases h.lt_or_eq with hlt | he
  · rw [initialSp, u32_of_lt hlt, sub32_of_le (by unfold taskStackSize; omega) hlt]
  · rw [initialSp, he]
    rfl

theorem initialFrame_outside (h : x < sp ∨ sp + 20 ≤ x) : initialFrame tramp m sp x = m x := by
  unfold initialFrame
  rw [writeWord_outside (by omega), writeWord_outside (by omega), writeWord_outside (by omega),
    writeWord_outside (by omega), writeWord_outside (by omega)]

/-- The five words of the frame, from the top of the stack downwards in memory order. -/
theorem initialFrame_words (m : Mem) (tramp sp : ℕ) :
    readWord (initialFrame tramp m sp) sp = 0 ∧ readWord (initialFrame tramp m sp) (sp + 4) = 0 ∧
      readWord (initialFrame tramp m sp) (sp + 8) = 0 ∧
      readWord (initialFrame tramp m sp) (sp + 12) = 0 ∧
      readWord (initialFrame tramp m sp) (sp + 16) = u32 tramp := by
  have h0 : u32 0 = 0 := rfl
  unfold initialFrame
  refine ⟨?_, ?_, ?_, ?_, readWord_writeWord_same _ _ _⟩
  · rw [readWord_writeWord_of_disjoint (by omega), readWord_writeWord_of_disjoint (by omega),
      readWord_writeWord_of_disjoint (by omega), readWord_writeWord_of_disjoint (by omega),
      readWord_writeWord_same, h0]
  · rw [readWord_writeWord_of_disjoint (by omega), readWord_writeWord_of_disjoint (by omega),
      readWord_writeWord_of_disjoint (by omega), readWord_writeWord_same, h0]
  · rw [readWord_writeWord_of_disjoint (by omega), readWord_writeWord_of_disjoint (by omega),
      readWord_writeWord_same, h0]
  · rw [readWord_writeWord_of_disjoint (by omega), readWord_writeWord_same, h0]

theorem insertTask_outside (ht : ¬ (descriptor t).Has x) (hc : ¬ (descriptor cur).Has x) :
    insertTask m cur t x = m x := by
  rw [insertTask, setNext_outside hc, setNext_outside ht]

/-- A task is linked in two steps, also when it lies where a linked one did. -/
theorem nextOf_insertTask (ht : t < 2 ^ 32) : nextOf (insertTask m cur t) cur = t := by
  rw [insertTask, nextOf_setNext, u32_of_lt ht]

theorem nextOf_insertTask_new (h : (descriptor cur).Apart (descriptor t)) :
    nextOf (insertTask m cur t) t = nextOf m cur := by
  have hne : nextOf (insertTask m cur t) t = nextOf (setNext m t (nextOf m cur)) t :=
    nextOf_congr (fun x hx => setNext_outside (h.symm.not_has hx))
  rw [hne, nextOf_setNext, u32_of_lt nextOf_lt]

theorem nextOf_installTask (ht : t < 2 ^ 32) :
    nextOf (installTask tramp m cur t stack entry pid) cur = t := nextOf_insertTask ht

theorem initialFrame_apart (hst : stack + taskStackSize ≤ 2 ^ 32) (hs : ¬ (stackSpan stack).Has x) :
    initialFrame tramp m (initialSp stack) x = m x := by
  apply initialFrame_outside
  rw [stackSpan_has] at hs
  rw [initialSp_eq hst]
  unfold taskStackSize
  omega

/-- Creation writes the new stack, the new descriptor and the current one only. -/
theorem installTask_outside (hst : stack + taskStackSize ≤ 2 ^ 32) (hs : ¬ (stackSpan stack).Has x)
    (ht : ¬ (descriptor t).Has x) (hc : ¬ (descriptor cur).Has x) :
    installTask tramp m cur t stack entry pid x = m x := by
  rw [installTask, insertTask_outside ht hc, fillTask_outside ht, initialFrame_apart hst hs]

end install
end ShadOS.Tasking
