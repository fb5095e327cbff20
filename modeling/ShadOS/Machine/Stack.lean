import ShadOS.Machine.Cpu

/-! # Registers restored from the stack

Popping a list of registers takes consecutive words from the stack pointer on.
What was pushed in one order comes back in the reverse one.
-/

namespace ShadOS.Machine.Cpu

/-- The registers, popped in turn; the word of the stack pointer itself is dropped. -/
def popAll (c : Cpu) (rs : List Reg) : Cpu :=
  rs.foldl (fun c r => if r = .esp then c.drop else c.exec (.pop r)) c

variable {c : Cpu} {r r' : Reg} {rs : List Reg} {e v : ℕ}

theorem popAll_cons : c.popAll (r :: rs) =
    (if r = .esp then c.drop else c.exec (.pop r)).popAll rs := rfl

/-- One word further up the stack. -/
theorem pop_esp (he : c.regs .esp = e) (hlt : e + 4 < 2 ^ 32) :
    (if r = .esp then c.drop else c.exec (.pop r)).regs .esp = e + 4 := by
  by_cases hr : r = .esp
  · rw [if_pos hr, drop_esp, he, u32_of_lt hlt]
  · rw [if_neg hr, exec, set_regs_of_ne (Ne.symm hr), drop_esp, he, u32_of_lt hlt]

theorem pop_regs_of_ne (hr : r' ≠ r) (hsp : r' ≠ .esp) :
    (if r = .esp then c.drop else c.exec (.pop r)).regs r' = c.regs r' := by
  by_cases h : r = .esp
  · rw [if_pos h, drop_regs_of_ne hsp]
  · rw [if_neg h, exec, set_regs_of_ne hr, drop_regs_of_ne hsp]

theorem pop_regs_self (hsp : r ≠ .esp) :
    (if r = .esp then c.drop else c.exec (.pop r)).regs r = c.top := by
  rw [if_neg hsp, exec, set_regs_self]

theorem pop_mem : (if r = .esp then c.drop else c.exec (.pop r)).mem = c.mem := by
  split <;> rfl

theorem popAll_mem : (c.popAll rs).mem = c.mem := by
  induction rs generalizing c with
  | nil => rfl
  | cons r rs ih => rw [popAll_cons, ih, pop_mem]

theorem popAll_esp (he : c.regs .esp = e) (hlt : e + 4 * rs.length < 2 ^ 32) :
    (c.popAll rs).regs .esp = e + 4 * rs.length := by
  induction rs generalizing c e with
  | nil => exact he
  | cons r rs ih =>
    rw [List.length_cons] at hlt
    rw [popAll_cons, ih (pop_esp he (by omega)) (by omega), List.length_cons]
    omega

theorem popAll_regs_of_notMem (hr : r ∉ rs) (hsp : r ≠ .esp) : (c.popAll rs).regs r = c.regs r := by
  induction rs generalizing c with
  | nil => rfl
  | cons a rs ih =>
    rw [List.mem_cons, not_or] at hr
    rw [popAll_cons, ih hr.2, pop_regs_of_ne hr.1 hsp]

/-- The register popped `i`-th gets the `i`-th word. -/
theorem popAll_regs (he : c.regs .esp = e) (hlt : e + 4 * rs.length < 2 ^ 32) (hrs : rs.Nodup)
    {i : ℕ} (hi : i < rs.length) (hsp : rs[i] ≠ .esp) :
    (c.popAll rs).regs rs[i] = readWord c.mem (e + 4 * i) := by
  induction rs generalizing c e i with
  | nil => cases hi
  | cons r rs ih =>
    rw [List.length_cons] at hlt
    have hnew := (List.nodup_cons.mp hrs).1
    cases i with
    | zero =>
      have hsp : r ≠ .esp := hsp
      have hself : (c.popAll (r :: rs)).regs r = c.top := by
        rw [popAll_cons, popAll_regs_of_notMem hnew hsp, pop_regs_self hsp]
      exact hself.trans (congrArg (readWord c.mem) he)
    | succ i =>
      have hlen : i < rs.length := Nat.lt_of_succ_lt_succ hi
      have hnext := ih (pop_esp (r := r) he (by omega)) (by omega) (List.nodup_cons.mp hrs).2 hlen hsp
      rw [pop_mem] at hnext
      rw [popAll_cons, show e + 4 * (i + 1) = e + 4 + 4 * i by omega]
      exact hnext

/-- Words pushed from the last one on lie in their order. -/
theorem pushAll_reverse_word {ws : List ℕ} (he : c.regs .esp = e + 4 * ws.length)
    (hlt : e + 4 * ws.length < 2 ^ 32) {k : ℕ} (hk : k < ws.length) :
    readWord (c.pushAll ws.reverse).mem (e + 4 * k) = u32 ws[k] := by
  have hlen := ws.length_reverse
  have hi : ws.length - 1 - k < ws.reverse.length := by omega
  have hword : readWord (c.pushAll ws.reverse).mem (e + 4 * (ws.reverse.length - 1 -
      (ws.length - 1 - k))) = u32 ws.reverse[ws.length - 1 - k] :=
    pushAll_word (hlen.symm ▸ he) (hlen.symm ▸ hlt) hi
  have hpos : ws.reverse.length - 1 - (ws.length - 1 - k) = k := by omega
  have hback : ws.length - 1 - (ws.length - 1 - k) = k := by omega
  rw [hpos, List.getElem_reverse] at hword
  simpa only [hback] using hword

theorem pushAll_append (c : Cpu) (ws ws' : List ℕ) :
    c.pushAll (ws ++ ws') = (c.pushAll ws).pushAll ws' := List.foldl_append

theorem pushWord_withEip (c : Cpu) (x w : ℕ) :
    { c with eip := x }.pushWord w = { c.pushWord w with eip := x } := by
  simp only [pushWord, set, write]

/-- The instruction pointer does not matter for what is pushed. -/
theorem pushAll_withEip (c : Cpu) (x : ℕ) (ws : List ℕ) :
    { c with eip := x }.pushAll ws = { c.pushAll ws with eip := x } := by
  induction ws generalizing c with
  | nil => rfl
  | cons w ws ih => rw [pushAll_cons, pushWord_withEip, ih, pushAll_cons]

theorem Wf.pushAll (h : c.Wf) (ws : List ℕ) : (c.pushAll ws).Wf := by
  induction ws generalizing c with
  | nil => exact h
  | cons w ws ih => exact ih h.pushWord

end ShadOS.Machine.Cpu
