import ShadOS.Handlers.Source
import ShadOS.Machine.Runs
import ShadOS.Paging.Identity
import ShadOS.Stubs.Transparent

/-! # A program in ring 3 and its system calls

The program sees a system call as one step: its result in `eax`, and what the
terminal shows. The gate, the stub and the dispatcher do the same in many steps
on the stack of the TSS, which is the same stack at every call. A write whose
buffer has a byte that is not mapped shows the bytes before it and faults.
-/

namespace ShadOS.Handlers
open Machine Strings
open Stubs (Sized Outer stackTop frameSize atHandler registersAt saved leave resumed reload)
open Usermode (Seg sysExit sysWrite)

/-! ## What the program sees -/

/-- The program, its memory, and the terminal. -/
structure User where
  regs : Reg → ℕ
  eip : ℕ
  eflags : ℕ
  segs : Seg → ℕ
  mem : Mem
  syscallCount : ℕ
  screen : List Call

/-- What the kernel says of the first write. -/
def announcement (cs : ℕ) : List Call :=
  [.setcolor .yellow .black, say "[noyau] syscall recu depuis CS=0x", writeHex cs, say " (RPL=",
    .writestring (decimal (cs % 4)), say ") -> ring3 confirme\n", .setcolor .lightGrey .black]

namespace User

/-- The announcement, if no system call was made before. -/
def announced (a : User) : List Call :=
  if u32 (a.syscallCount + 1) = 1 then announcement (a.segs .cs) else []

/-- The first `n` bytes of the buffer in `ebx`, shown. -/
def bytesShown (a : User) (n : ℕ) : List Call :=
  (List.range n).map (fun i => .putchar (a.mem (u32 (a.regs .ebx + i))))

/-- The result of a system call that returns. -/
def result (a : User) : ℕ := if a.regs .eax = sysWrite then a.regs .ecx else 2 ^ 32 - 1

/-- What it shows: the bytes of the buffer, behind the announcement the first time. -/
def shown (a : User) : List Call :=
  if a.regs .eax = sysWrite then a.announced ++ a.bytesShown (a.regs .ecx)
  else [say "[noyau] appel systeme inconnu.\n"]

/-- A system call as one step; the extra data segments become `ds`. -/
def syscall (a : User) : User :=
  { a with
    regs := Function.update a.regs .eax a.result
    segs := reload a.segs (a.segs .ds)
    syscallCount := u32 (a.syscallCount + 1)
    screen := a.screen ++ a.shown }

end User

/-! ## What the machine does -/

structure Session where
  cpu : Usermode.State
  cr2 : ℕ
  syscallCount : ℕ
  screen : List Call

/-- What `isr_handler` works on when it starts in `h`. -/
def Session.atStart (c : Session) (h : Usermode.State) : State :=
  ⟨h.cpu.mem, c.syscallCount, c.screen⟩

inductive Event where
  /-- The program computes. -/
  | compute (u : Usermode.State)
  /-- `int $0x80`, up to the return of `isr_handler` in `t`, and back through the stub. -/
  | syscall (isr128 afterCall : ℕ) (t : Usermode.State)

/-- The compiled `isr_handler`, started in `h`, has returned in `t` and left memory as `m`, but for
its own frames on the stack from `lo` on. -/
structure Ran (lo : ℕ) (h t : Usermode.State) (m : Mem) : Prop where
  esp : t.cpu.regs .esp = h.cpu.regs .esp + 4
  mem : ∀ x, x < lo ∨ h.cpu.regs .esp + 4 ≤ x → t.cpu.mem x = m x
  cs : t.segs .cs = h.segs .cs
  ss : t.segs .ss = h.segs .ss
  esp0 : t.esp0 = h.esp0

namespace Session

/-- A call that exits or faults does not return to the program. -/
def step (p : Paging.State) (c : Session) : Event → Option Session
  | .compute u => some { c with cpu := u }
  | .syscall isr128 afterCall t =>
    (enter p c.cpu 128 0 isr128 afterCall).bind (fun h =>
      (isrHandler p (c.atStart h) c.cr2 (h.word 1)).bind (fun r =>
        if r.1 = .returned then some ⟨leave t, c.cr2, r.2.syscallCount, r.2.screen⟩ else none))

/-- Ring 3 keeps its code segment and the stack of the TSS; a buffer to write lies outside
the stack from `lo` to `top`. -/
def allowed (p : Paging.State) (lo top : ℕ) (c : Session) : Event → Prop
  | .compute u => Sized u ∧ u.segs .cs = c.cpu.segs .cs ∧ u.esp0 = c.cpu.esp0
  | .syscall isr128 afterCall t =>
    (∀ h r, enter p c.cpu 128 0 isr128 afterCall = some h →
      isrHandler p (c.atStart h) c.cr2 (h.word 1) = some r → Ran lo h t r.2.mem) ∧
    (c.cpu.cpu.regs .eax = sysWrite → ∀ i < c.cpu.cpu.regs .ecx,
      u32 (c.cpu.cpu.regs .ebx + i) < lo ∨ top ≤ u32 (c.cpu.cpu.regs .ebx + i))

end Session

/-- A program in ring 3 under the page tables `p`, over a kernel stack from `lo` to `top`. -/
def session (p : Paging.State) (lo top : ℕ) : System Session Event where
  init c := Sized c.cpu ∧ Outer c.cpu ∧ c.cpu.esp0 = top ∧ lo + 72 ≤ top ∧ top < 2 ^ 32 ∧
    ∀ x, lo ≤ x → x < top → p.translate x ≠ none
  allowed := Session.allowed p lo top
  step := Session.step p

/-- The machine agrees with what the program sees, but for the kernel stack. -/
structure Refines (lo top : ℕ) (c : Session) (a : User) : Prop where
  regs : c.cpu.cpu.regs = a.regs
  eip : c.cpu.cpu.eip = a.eip
  eflags : c.cpu.eflags = a.eflags
  segs : c.cpu.segs = a.segs
  mem : ∀ x, x < lo ∨ top ≤ x → c.cpu.cpu.mem x = a.mem x
  syscallCount : c.syscallCount = a.syscallCount
  screen : c.screen = a.screen

/-- The same event as one step of the program. -/
def User.step (a : User) : Event → User
  | .compute u =>
    { a with regs := u.cpu.regs, eip := u.cpu.eip, eflags := u.eflags, segs := u.segs, mem := u.cpu.mem }
  | .syscall _ _ _ => a.syscall

/-! ## The dispatcher -/

variable {d : Paging.Arrays} {p : Paging.State} {lo top e regs : ℕ} {s : State} {c c' : Session}
  {a : User} {h t u : Usermode.State}

theorem writeUint_eq (n : ℕ) : writeUint n = some (.writestring (decimal (u32 n))) := by
  rw [writeUint, uintText_spec (u32_lt n), Option.map_some]
  exact congrArg (some ∘ Call.writestring) (untilNul_append (decimal_noNul _))

theorem banner_eq (cs : ℕ) : banner cs = some (announcement cs) := by
  have hmask : cs &&& 0x3 = cs % 4 := Nat.and_two_pow_sub_one_eq_mod cs 2
  rw [banner, writeUint_eq, hmask, u32_of_lt (by omega)]
  rfl

/-- What the program passes to the dispatcher. -/
structure Passes (a : User) (s : State) (q : Stubs.Registers) : Prop where
  intNo : q.intNo = 128
  eax : q.eax = a.regs .eax
  ebx : q.ebx = a.regs .ebx
  ecx : q.ecx = a.regs .ecx
  cs : q.cs = a.segs .cs
  syscallCount : s.syscallCount = a.syscallCount
  screen : s.screen = a.screen

/-- As the translation is the identity, the loop shows the bytes of the buffer, up to the first one
that is not mapped. -/
theorem putchars_spec (hp : (Paging.paging d).Reaches p) (m : Mem) (len : ℕ) :
    ∀ buf < 2 ^ 32, ∃ n ≤ len, (∀ i < n, p.translate (u32 (buf + i)) ≠ none) ∧
      (putchars p m buf len).1 = (List.range n).map (fun i => .putchar (m (u32 (buf + i)))) ∧
      (n = len ∧ (putchars p m buf len).2 = none ∨ n < len ∧ p.translate (u32 (buf + n)) = none ∧
        (putchars p m buf len).2 = some (u32 (buf + n))) := by
  induction len with
  | zero => exact fun _ _ => ⟨0, le_rfl, by simp, rfl, .inl ⟨rfl, rfl⟩⟩
  | succ len ih =>
    intro buf hbuf
    have h0 : u32 (buf + 0) = buf := u32_of_lt hbuf
    have hnext (i : ℕ) : u32 (u32 (buf + 1) + i) = u32 (buf + (i + 1)) := by
      unfold u32
      omega
    cases htr : p.translate buf with
    | none =>
      refine ⟨0, Nat.zero_le _, by simp, ?_, .inr ⟨Nat.succ_pos _, ?_, ?_⟩⟩
      · simp [putchars, htr]
      · rwa [h0]
      · rw [putchars, htr, h0]
    | some r =>
      obtain rfl := (Paging.identity_map hp).1 buf hbuf r htr
      obtain ⟨n, hn, hmapped, hcalls, hend⟩ := ih (u32 (buf + 1)) (u32_lt _)
      simp only [hnext] at hmapped hcalls hend
      refine ⟨n + 1, Nat.succ_le_succ hn, fun i hi => ?_, ?_, ?_⟩
      · cases i with
        | zero => rw [h0, htr]; exact Option.some_ne_none _
        | succ i => exact hmapped i (Nat.lt_of_succ_lt_succ hi)
      · rw [List.range_succ_eq_map, List.map_cons, List.map_map, h0]
        simp only [putchars, htr, hcalls]
        rfl
      · simp only [putchars, htr]
        exact hend.imp (fun he => ⟨congrArg Nat.succ he.1, he.2⟩)
          (fun he => ⟨Nat.succ_lt_succ he.1, he.2⟩)

/-- The bytes that `n` calls of `terminal_putchar` show are those the program sees. -/
theorem bytesShown_congr {m : Mem} {n : ℕ}
    (h : ∀ i < n, m (u32 (a.regs .ebx + i)) = a.mem (u32 (a.regs .ebx + i))) :
    (List.range n).map (fun i => Call.putchar (m (u32 (a.regs .ebx + i)))) = a.bytesShown n :=
  List.map_congr_left (fun i hi => congrArg Call.putchar (h i (List.mem_range.mp hi)))

/-- A write shows its buffer, or faults at the first byte that is not mapped. -/
theorem isrHandler_write (hd : (Paging.paging d).Reaches p)
    (hp : Passes a s (registersAt s.mem regs)) (hwrite : a.regs .eax = sysWrite) (cr2 : ℕ) :
    ∃ n ≤ a.regs .ecx, (∀ i < n, p.translate (u32 (a.regs .ebx + i)) ≠ none) ∧
      ((∀ i < n, s.mem (u32 (a.regs .ebx + i)) = a.mem (u32 (a.regs .ebx + i))) →
        n = a.regs .ecx ∧ isrHandler p s cr2 regs = some (.returned,
          ⟨writeWord s.mem (regs + 32) (a.regs .ecx), u32 (a.syscallCount + 1),
            a.screen ++ (a.announced ++ a.bytesShown n)⟩) ∨
        n < a.regs .ecx ∧ p.translate (u32 (a.regs .ebx + n)) = none ∧
          isrHandler p s cr2 regs = some (.faulted (u32 (a.regs .ebx + n)),
            ⟨s.mem, u32 (a.syscallCount + 1), a.screen ++ (a.announced ++ a.bytesShown n)⟩)) := by
  have hebx : a.regs .ebx < 2 ^ 32 := hp.ebx ▸ readWord_lt _ _
  obtain ⟨n, hn, hmapped, hcalls, hend⟩ := putchars_spec hd s.mem (a.regs .ecx) _ hebx
  refine ⟨n, hn, hmapped, fun hbuffer => ?_⟩
  rw [bytesShown_congr hbuffer] at hcalls
  have hrun (o : Option ℕ) (ho : (putchars p s.mem (a.regs .ebx) (a.regs .ecx)).2 = o) :
      putchars p s.mem (a.regs .ebx) (a.regs .ecx) = (a.bytesShown n, o) := Prod.ext hcalls ho
  rw [isrHandler, if_pos hp.intNo, syscallDispatch]
  simp only [hp.eax, hwrite, if_true, hp.cs, hp.ebx, hp.ecx, hp.syscallCount, banner_eq,
    ← apply_ite some, Option.map_some, State.print, State.setEax, hp.screen, List.append_assoc]
  rcases hend with ⟨hall, hnone⟩ | ⟨hlt, htr, hsome⟩
  · refine .inl ⟨hall, ?_⟩
    rw [hrun none hnone]
    rfl
  · refine .inr ⟨hlt, htr, ?_⟩
    rw [hrun _ hsome]
    rfl

/-- The dispatcher does what the program sees, and stores the result for the stub. -/
theorem isrHandler_passes (hd : (Paging.paging d).Reaches p)
    (hp : Passes a s (registersAt s.mem regs)) (hexit : a.regs .eax ≠ sysExit)
    (hbuffer : a.regs .eax = sysWrite → ∀ i < a.regs .ecx,
      p.translate (u32 (a.regs .ebx + i)) ≠ none ∧
        s.mem (u32 (a.regs .ebx + i)) = a.mem (u32 (a.regs .ebx + i)))
    (cr2 : ℕ) : isrHandler p s cr2 regs = some (.returned,
      ⟨writeWord s.mem (regs + 32) a.result, a.syscall.syscallCount, a.syscall.screen⟩) := by
  by_cases hwrite : a.regs .eax = sysWrite
  · have hresult : a.result = a.regs .ecx := if_pos hwrite
    have hshown : a.shown = a.announced ++ a.bytesShown (a.regs .ecx) := if_pos hwrite
    obtain ⟨n, hn, -, hcases⟩ := isrHandler_write hd hp hwrite cr2
    rcases hcases (fun i hi => (hbuffer hwrite i (hi.trans_le hn)).2) with ⟨rfl, hrun⟩ | ⟨hlt, htr, -⟩
    · rw [hrun, hresult, User.syscall, hshown]
    · exact absurd htr (hbuffer hwrite n hlt).1
  · have hresult : a.result = 2 ^ 32 - 1 := if_neg hwrite
    have hshown : a.shown = [say "[noyau] appel systeme inconnu.\n"] := if_neg hwrite
    rw [isrHandler, if_pos hp.intNo, syscallDispatch]
    simp only [hp.eax, hwrite, hexit, if_false, State.print, State.setEax, hp.screen,
      hp.syscallCount, User.syscall, hresult, hshown]

theorem isrHandler_exit (hp : Passes a s (registersAt s.mem regs)) (hexit : a.regs .eax = sysExit)
    (cr2 : ℕ) : isrHandler p s cr2 regs = some (.toKernel,
      ⟨s.mem, u32 (s.syscallCount + 1),
        s.screen ++ [say "[noyau] syscall exit() recu, retour au contexte noyau.\n"]⟩) := by
  have hwrite : sysExit ≠ sysWrite := by decide
  simp only [isrHandler, if_pos hp.intNo, syscallDispatch, hp.eax, hexit, hwrite, if_false, if_true,
    State.print]

/-! ## One system call -/

/-- No instruction of a stub changes the TSS. -/
theorem run_esp0 (code : List Usermode.Op) : (u.run code).esp0 = u.esp0 := by
  induction code generalizing u with
  | nil => rfl
  | cons o code ih =>
    apply ih.trans
    cases o <;> rfl

theorem atHandler_esp0 {vector errCode entry afterCall : ℕ}
    (hh : atHandler u vector errCode entry afterCall = some h) : h.esp0 = u.esp0 := by
  obtain ⟨code, hcode, rfl⟩ := Option.map_eq_some_iff.mp hh
  obtain ⟨-, -, -, hesp0⟩ := Stubs.gate_stub u errCode entry hcode
  exact (run_esp0 (Stubs.commonEntry afterCall)).trans hesp0

/-- A handler that stored `v` in `regs->eax`. -/
theorem Ran.stored {v : ℕ} (hran : Ran lo h t (writeWord h.cpu.mem (e + 8 + 32) v))
    (hesp : h.cpu.regs .esp = e) : Stubs.Returned u h t (e + 8) ∧
      readWord t.cpu.mem (e + 8 + 32) = u32 v ∧
      ∀ x, x < lo ∨ e + 8 + 36 ≤ x → x < e + 8 + 32 ∨ e + 8 + 36 ≤ x → t.cpu.mem x = h.cpu.mem x := by
  have hkept : ∀ x, x < lo ∨ e + 4 ≤ x → x < e + 8 + 32 ∨ e + 8 + 36 ≤ x →
      t.cpu.mem x = h.cpu.mem x := by
    intro x hx hout
    rw [hran.mem x (hesp ▸ hx)]
    apply writeWord_outside
    omega
  refine ⟨⟨⟨hran.esp, hran.cs, hran.ss⟩, fun x hx _ hout => hkept x (by omega) hout⟩, ?_,
    fun x hx hout => hkept x (by omega) hout⟩
  rw [← readWord_writeWord_same h.cpu.mem (e + 8 + 32) v]
  apply readWord_congr
  intro x hx _
  apply hran.mem
  omega

/-- The kernel stack takes the frame of a call from ring 3. -/
structure Ready (p : Paging.State) (lo top : ℕ) (c : Session) : Prop where
  sized : Sized c.cpu
  outer : Outer c.cpu
  esp0 : c.cpu.esp0 = top
  room : lo + 72 ≤ top
  mapped : ∀ x, lo ≤ x → x < top → p.translate x ≠ none
  top : top < 2 ^ 32

namespace Ready

theorem stack (hc : Ready p lo top c) : ∃ e, top = e + 72 ∧ lo ≤ e ∧
    stackTop c.cpu = e + 8 + frameSize c.cpu ∧ stackTop c.cpu = top := by
  have hroom := hc.room
  have htop : stackTop c.cpu = top := (if_pos hc.outer).trans hc.esp0
  have hsize : frameSize c.cpu = 64 := if_pos hc.outer
  exact ⟨top - 72, by omega, by omega, by omega, htop⟩

theorem enter_eq (hc : Ready p lo top c) (isr128 afterCall : ℕ) :
    enter p c.cpu 128 0 isr128 afterCall = atHandler c.cpu 128 0 isr128 afterCall := by
  obtain ⟨e, he, hlo, hst, htop⟩ := hc.stack
  refine if_pos (fun k hk => ?_)
  have hlt := hc.top
  rw [htop, sub32_of_le (by omega) hlt]
  apply hc.mapped <;> omega

/-- What `isr_handler` finds: its argument, the frame, and the memory of the program. -/
theorem found (hc : Ready p lo top c) {isr128 afterCall : ℕ}
    (hh : enter p c.cpu 128 0 isr128 afterCall = some h) (he : top = e + 72) :
    h.word 1 = e + 8 ∧ registersAt h.cpu.mem (e + 8) = saved c.cpu 128 0 ∧
      h.cpu.regs .esp = e ∧ ∀ x, x < e ∨ top ≤ x → h.cpu.mem x = c.cpu.cpu.mem x := by
  obtain ⟨e', he', -, hst, htop⟩ := hc.stack
  obtain rfl : e' = e := by omega
  rw [hc.enter_eq] at hh
  have hlt : stackTop c.cpu < 2 ^ 32 := htop ▸ hc.top
  have h32 := hc.top
  obtain ⟨hmem, hesp, -⟩ := Stubs.atHandler_words hh hst hlt
  refine ⟨?_, Stubs.registersAt_atHandler hc.sized hh hst hlt (by decide), hesp, ?_⟩
  · have hlen := Stubs.frame_length c.cpu 128 0 (e' + 8)
    have hwords : (c.cpu.cpu.set .esp (stackTop c.cpu)).regs .esp =
        e' + 4 * ([afterCall, e' + 8] ++ Stubs.frame c.cpu 128 0 (e' + 8)).length := by
      rw [Cpu.set_regs_self, List.length_append, List.length_cons, List.length_cons, List.length_nil]
      omega
    have hword := Cpu.pushAll_reverse_word hwords (by rwa [← hwords, Cpu.set_regs_self]) (k := 1)
      (by rw [List.length_append, List.length_cons, List.length_cons]; omega)
    rw [Usermode.State.word, hesp, u32_of_lt (by omega), hmem, hword]
    exact (u32_of_lt (by omega) : u32 (e' + 8) = e' + 8)
  · intro x hx
    apply Stubs.atHandler_outside hh hst hlt
    rwa [htop]

theorem eax_lt (hc : Ready p lo top c) (hr : Refines lo top c a) : a.result < 2 ^ 32 := by
  unfold User.result
  split
  · exact hr.regs ▸ hc.sized.regs .ecx
  · decide

theorem passes (hr : Refines lo top c a) (hfound : registersAt h.cpu.mem regs = saved c.cpu 128 0) :
    Passes a (c.atStart h) (registersAt (c.atStart h).mem regs) := by
  have hq : registersAt (c.atStart h).mem regs = saved c.cpu 128 0 := hfound
  rw [hq]
  exact ⟨rfl, congrFun hr.regs .eax, congrFun hr.regs .ebx, congrFun hr.regs .ecx,
    congrFun hr.segs .cs, hr.syscallCount, hr.screen⟩

/-- A byte outside the kernel stack is the one the program sees. -/
theorem byte_eq (hc : Ready p lo top c) (hr : Refines lo top c a) {isr128 afterCall x : ℕ}
    (hh : enter p c.cpu 128 0 isr128 afterCall = some h) (hx : x < lo ∨ top ≤ x) :
    h.cpu.mem x = a.mem x := by
  obtain ⟨e, he, hlo, -⟩ := hc.stack
  obtain ⟨-, -, -, hout⟩ := hc.found hh he
  rw [hout x (by omega), hr.mem x hx]

/-- A system call of the machine is one of the program. -/
theorem syscall (hd : (Paging.paging d).Reaches p) (hc : Ready p lo top c) (hr : Refines lo top c a)
    {isr128 afterCall : ℕ} (ha : Session.allowed p lo top c (.syscall isr128 afterCall t))
    (hs : c.step p (.syscall isr128 afterCall t) = some c') :
    Ready p lo top c' ∧ Refines lo top c' a.syscall := by
  rw [Session.step] at hs
  obtain ⟨h, hh, hs⟩ := Option.bind_eq_some_iff.mp hs
  obtain ⟨r, hrun, hs⟩ := Option.bind_eq_some_iff.mp hs
  obtain ⟨e, he, hlo, hst, htop⟩ := hc.stack
  obtain ⟨harg, hfound, hesp, hout⟩ := hc.found hh he
  have hran := ha.1 h r hh hrun
  have hpass := passes hr hfound
  rw [harg] at hrun
  have hreturned : r.1 = .returned := by
    by_contra hno
    rw [if_neg hno] at hs
    cases hs
  have hexit : a.regs .eax ≠ sysExit := by
    intro hexit
    rw [isrHandler_exit hpass hexit] at hrun
    obtain rfl := Option.some.inj hrun
    cases hreturned
  have hbuffer : a.regs .eax = sysWrite → ∀ i < a.regs .ecx,
      p.translate (u32 (a.regs .ebx + i)) ≠ none ∧
        (c.atStart h).mem (u32 (a.regs .ebx + i)) = a.mem (u32 (a.regs .ebx + i)) := by
    intro hwrite
    have hsame : ∀ i < a.regs .ecx,
        (c.atStart h).mem (u32 (a.regs .ebx + i)) = a.mem (u32 (a.regs .ebx + i)) := by
      intro i hi
      have hclear := ha.2 (hr.regs ▸ hwrite) i (hr.regs ▸ hi)
      rw [hr.regs] at hclear
      exact hc.byte_eq hr hh hclear
    obtain ⟨n, hn, hmapped, hcases⟩ := isrHandler_write hd hpass hwrite c.cr2
    rcases hcases (fun i hi => hsame i (hi.trans_le hn)) with ⟨rfl, -⟩ | ⟨-, -, hfault⟩
    · exact fun i hi => ⟨hmapped i hi, hsame i hi⟩
    · rw [hfault] at hrun
      obtain rfl := Option.some.inj hrun
      cases hreturned
  rw [isrHandler_passes hd hpass hexit hbuffer] at hrun
  obtain rfl := Option.some.inj hrun
  obtain rfl := Option.some.inj hs
  rw [hc.enter_eq] at hh
  obtain ⟨hret, heax, hmem⟩ := hran.stored (u := c.cpu) hesp
  have hleave := Stubs.handler_transparent hc.sized hh hst (htop ▸ hc.top) (by decide) hret
  have hresult := hc.eax_lt hr
  have hesp0 := atHandler_esp0 hh
  rw [heax, u32_of_lt hresult] at hleave
  rw [hleave]
  have htop32 := hc.top
  refine ⟨⟨⟨?_, hc.sized.eip, hc.sized.eflags, ?_⟩, hc.outer, ?_, hc.room, hc.mapped, hc.top⟩,
    ⟨?_, hr.eip, hr.eflags, ?_, ?_, rfl, rfl⟩⟩
  · exact hc.sized.regs.set hresult
  · intro g
    cases g <;> exact hc.sized.segs _
  · exact (hran.esp0.trans hesp0).trans hc.esp0
  · exact congrArg (Function.update · .eax a.result) hr.regs
  · exact congrArg (fun segs => reload segs (segs .ds)) hr.segs
  · intro x hx
    exact (hmem x (by omega) (by omega)).trans ((hout x (by omega)).trans (hr.mem x hx))

/-- So is everything else the program does. -/
theorem step (hd : (Paging.paging d).Reaches p) (hc : Ready p lo top c) (hr : Refines lo top c a)
    {ev : Event} (ha : Session.allowed p lo top c ev) (hs : c.step p ev = some c') :
    Ready p lo top c' ∧ Refines lo top c' (a.step ev) := by
  cases ev with
  | compute u =>
    obtain rfl := Option.some.inj hs
    obtain ⟨hsized, hcs, hesp0⟩ := ha
    refine ⟨⟨hsized, ?_, hesp0.trans hc.esp0, hc.room, hc.mapped, hc.top⟩,
      ⟨rfl, rfl, rfl, rfl, fun _ _ => rfl, hr.syscallCount, hr.screen⟩⟩
    have houter := hc.outer
    unfold Outer at houter ⊢
    rwa [hcs]
  | syscall isr128 afterCall t => exact hc.syscall hd hr ha hs

end Ready

end ShadOS.Handlers
