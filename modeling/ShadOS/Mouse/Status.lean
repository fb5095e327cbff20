import ShadOS.Mouse.Handshake
import ShadOS.Machine.Runs

/-! # From `mouse_init` on

The bytes that wait are those of the movements, so no packet is lost or taken
apart, and the status row always shows the position and the buttons.
-/

namespace ShadOS.Mouse
open Machine Strings Interrupts

/-! ## The row -/

/-- What was put last at a place. -/
def cell (drawn : List PutAt) (row col : ℕ) : Option (UInt8 × Colour × Colour) :=
  drawn.foldl (fun c p => if p.row = row ∧ p.col = col then some (p.char, p.fg, p.bg) else c) none

def rowCells (drawn : List PutAt) : List (Option (UInt8 × Colour × Colour)) :=
  (List.range label.length).map (fun i => cell drawn mouseStatusRow (mouseStatusCol + i))

/-- The numeral of three digits. -/
def numeral3 (n : ℤ) : List UInt8 := List.leftpad 3 48 (decimal n.toNat)

def lamp (on : Bool) : Colour × Colour := if on then (.black, .green) else (.lightGrey, .black)

/-- `Mouse x=... y=... L M R`, the letters of the pressed buttons lit. -/
def statusRow (m : Decoder) : List (UInt8 × Colour × Colour) :=
  (text "Mouse x=" ++ numeral3 m.x ++ text " y=" ++ numeral3 m.y ++ text " L M R").zip
    (List.replicate 18 (lamp false) ++
      [lamp (m.buttons &&& 0x01 ≠ 0), lamp false, lamp (m.buttons &&& 0x04 ≠ 0), lamp false,
        lamp (m.buttons &&& 0x02 ≠ 0)])

theorem digits3 {n : ℕ} (h : n < 1000) : List.leftpad 3 48 (decimal n) =
    [UInt8.ofNat (48 + n / 100 % 10), UInt8.ofNat (48 + n / 10 % 10), UInt8.ofNat (48 + n % 10)] := by
  by_cases h0 : n = 0
  · subst h0
    rfl
  rw [decimal, if_neg h0, Nat.digits_def' (by decide) (by omega)]
  by_cases h1 : n / 10 = 0
  · have h2 : n / 100 = 0 := by omega
    rw [h1, h2, Nat.digits_zero]
    rfl
  rw [Nat.digits_def' (by decide) (by omega)]
  by_cases h2 : n / 10 / 10 = 0
  · have h3 : n / 100 = 0 := by omega
    rw [h2, h3, Nat.digits_zero]
    rfl
  have h3 : n / 10 / 10 < 10 := by omega
  have h4 : n / 100 % 10 = n / 10 / 10 := by omega
  rw [Nat.digits_of_lt 10 _ h2 h3, h4]
  rfl

theorem putNum3_eq (row col : ℕ) {n : ℤ} (fg bg : Colour) (h0 : 0 ≤ n) (h : n ≤ 300) :
    ∃ a b c, numeral3 n = [a, b, c] ∧ putNum3 row col n fg bg =
      [⟨row, col, a, fg, bg⟩, ⟨row, col + 1, b, fg, bg⟩, ⟨row, col + 2, c, fg, bg⟩] := by
  refine ⟨_, _, _, digits3 (by omega), ?_⟩
  have h1 : ¬ n < 0 := by omega
  have h2 : ¬ n > 999 := by omega
  simp only [putNum3, if_neg h1, if_neg h2]

theorem putButton_eq (m : Decoder) (col : ℕ) (char mask : UInt8) : putButton m col char mask =
    ⟨mouseStatusRow, col, char, (lamp (m.buttons &&& mask ≠ 0)).1, (lamp (m.buttons &&& mask ≠ 0)).2⟩ := by
  by_cases h : m.buttons &&& mask = 0 <;> simp [putButton, lamp, h]

/-- The row behind a drawing, whatever was there before. -/
theorem rowCells_draw {m : Decoder} (hx : 0 ≤ m.x ∧ m.x ≤ 300) (hy : 0 ≤ m.y ∧ m.y ≤ 300)
    (drawn : List PutAt) : rowCells (drawn ++ mouseDrawStatus m) = (statusRow m).map some := by
  obtain ⟨a, b, c, hxd, hxp⟩ :=
    putNum3_eq mouseStatusRow (mouseStatusCol + 8) .lightGrey .black hx.1 hx.2
  obtain ⟨d, e, f, hyd, hyp⟩ :=
    putNum3_eq mouseStatusRow (mouseStatusCol + 14) .lightGrey .black hy.1 hy.2
  rw [mouseDrawStatus, hxp, hyp, putButton_eq, putButton_eq, putButton_eq, statusRow, hxd, hyd]
  generalize lamp (m.buttons &&& 0x01 ≠ 0) = left
  generalize lamp (m.buttons &&& 0x04 ≠ 0) = middle
  generalize lamp (m.buttons &&& 0x02 ≠ 0) = right
  simp only [rowCells, cell, List.foldl_append]
  rfl

theorem mouseDrawStatus_place (m : Decoder) {p : PutAt} (hp : p ∈ mouseDrawStatus m) :
    p.row = mouseStatusRow ∧ mouseStatusCol ≤ p.col ∧ p.col < mouseStatusCol + label.length := by
  have hlen : label.length = 23 := rfl
  rw [mouseDrawStatus] at hp
  simp only [List.mem_append, List.mem_map, List.mem_range, hlen, putNum3, putButton_eq, List.mem_cons,
    List.not_mem_nil, or_false] at hp
  rw [hlen]
  rcases hp with ((⟨i, hi, rfl⟩ | rfl | rfl | rfl) | rfl | rfl | rfl) | rfl | rfl | rfl <;>
    refine ⟨rfl, ?_, ?_⟩ <;> dsimp only <;> omega

/-! ## `mouse_init` -/

section init
variable {world : ℕ → List Happening} {callback : ℕ} {s : State}

theorem config_eq (v : UInt8) : (v &&& 0xDF ||| 0x02) &&& 0xDF = (v ||| 0x02) &&& 0xDF := by
  apply UInt8.eq_of_toBitVec_eq
  simp only [UInt8.toBitVec_and, UInt8.toBitVec_or, BitVec.and_or_distrib_right, BitVec.and_assoc,
    BitVec.and_self]

/-- The controller lets the clock of the mouse and its interrupt through, and only movements are on
their way to port 0x60. -/
def Answered (config : UInt8) (c : Controller) : Prop :=
  c.take.config = (config ||| 0x02) &&& 0xDF ∧ c.take.out ++ c.take.line = stream c.moved

/-- The mouse is told to report and its interrupt let through in any case. The answers are its own,
so that the configuration is the controller's and no answer is left, exactly when the flush is enough
for what was left before. -/
theorem mouse_init_iff (hw : Prompt world) (h : s.bus.ctl.Idle) (hcallback : callback ≠ 0) :
    (mouseInit world callback s).bus.ctl.take.reporting = true ∧
    (mouseInit world callback s).bus.ctl.overwritten = s.bus.ctl.overwritten ∧
    (∀ line < 16, (mouseInit world callback s).masks.masked line =
      (s.masks.masked line && !decide (line = 12 ∨ line = 2))) ∧
    (irqHandler (mouseInit world callback s).routines 44).1 = some callback ∧
    (Answered s.bus.ctl.config (mouseInit world callback s).bus.ctl ↔ s.bus.ctl.out.length ≤ 16) := by
  have hstands := programMouse_spec hw h
  refine ⟨hstands.reporting, hstands.overwritten, fun line hline => ?_,
    irqHandler_installed s.routines (by decide) hcallback, ?_⟩
  · change (picUnmaskIrq (picUnmaskIrq s.masks 12) 2).masked line = _
    rw [picUnmaskIrq_masked (by decide) hline, picUnmaskIrq_masked (by decide) hline, Bool.and_assoc,
      ← Bool.not_or, ← Bool.decide_or]
    simp only [eq_comm]
  · change Answered s.bus.ctl.config (programMouse world s.bus).ctl ↔ _
    rw [Answered, hstands.config, hstands.queue]
    have hlen : (s.bus.ctl.out.drop 16).length = s.bus.ctl.out.length - 16 := List.length_drop
    constructor
    · rintro ⟨-, hqueue⟩
      have hrest := congrArg List.length hqueue
      simp only [List.length_append, List.length_drop, List.length_cons, List.length_nil] at hrest
      omega
    · intro hle
      have hnil : s.bus.ctl.out.drop 16 = [] := List.drop_eq_nil_of_le hle
      rw [hnil]
      exact ⟨config_eq _, rfl⟩

/-- Every access leaves time for the controller and for the mouse. -/
def quick : ℕ → List Happening := fun _ => [.takes, .sends]

theorem quick_prompt : Prompt quick := by
  have htimeout : 0 < timeout / 2 := by decide
  intro n
  exact ⟨⟨n, le_rfl, by omega, by simp [quick]⟩, ⟨n, le_rfl, by omega, by simp [quick]⟩⟩

/-- The byte of the self-test was left behind, and the clock of the mouse is off. -/
def afterReset : State where
  bus := ⟨⟨[0xAA], none, .keyboard, 0x65, [], false, [], 0⟩, 0⟩
  mouse := initial
  mouseReady := false
  masks := ⟨0xFF, 0xFF⟩
  routines := fun _ => 0
  drawn := []

theorem afterReset_idle : afterReset.bus.ctl.Idle := ⟨rfl, rfl, rfl, rfl, rfl⟩

theorem mouse_init_reset : Answered 0x65 (mouseInit quick 0x8000 afterReset).bus.ctl :=
  (mouse_init_iff quick_prompt afterReset_idle (by decide)).2.2.2.2.mpr (by decide)

end init

/-! ## The movements that follow -/

inductive PointerEvent where
  | waits
  | irq12

section run
variable (world : ℕ → List Happening) (callback : ℕ)

/-- `mouse_init` flushes all that was left, and then the mouse interrupts while there is a byte. -/
def pointer : System State PointerEvent where
  init s := ∃ s₀, s₀.bus.ctl.Idle ∧ s₀.bus.ctl.out.length ≤ 16 ∧ s₀.mouse = initial ∧ s₀.drawn = [] ∧
    s = mouseInit world callback s₀
  allowed s e := match e with
    | .waits => True
    | .irq12 => s.bus.ctl.out ≠ []
  step s e := match e with
    | .waits => some { s with bus := settle world s.bus }
    | .irq12 => some (interrupt world s)

variable {world callback} {s s' : State} {m : Decoder}

theorem applied_short (hm : m.cycle = 0) (p : Packet) {n : ℕ} (hn : n < 3) :
    applied m (p.bytes.take n) = [] := by
  obtain rfl | rfl | rfl : n = 0 ∨ n = 1 ∨ n = 2 := by omega
  · rfl
  · simp [Packet.bytes, applied_cons_of_ne, hm]
  · simp [Packet.bytes, applied_cons_of_ne, hm, callback_flags hm p.sync]

/-- The packets that were read whole are applied, and no others. -/
theorem applied_prefix {ps : List Packet} {read : List UInt8} (hm : m.cycle = 0)
    (h : read <+: stream ps) : applied m read = (ps.take (read.length / 3)).map Packet.stored := by
  induction ps generalizing m read with
  | nil =>
    obtain rfl : read = [] := by simpa using h
    rfl
  | cons p ps ih =>
    have hlen : p.bytes.length = 3 := rfl
    have hread := List.prefix_iff_eq_take.mp h
    by_cases hn : read.length < 3
    · have hdiv : read.length / 3 = 0 := by omega
      rw [stream_cons, List.take_append_of_le_length (by omega)] at hread
      rw [hdiv, hread, applied_short hm p hn]
      rfl
    · obtain ⟨n, hn⟩ : ∃ n, read.length = 3 + n := ⟨read.length - 3, by omega⟩
      rw [hn, stream_cons, List.take_append, hlen, List.take_of_length_le (by omega),
        Nat.add_sub_cancel_left] at hread
      have hdiv : (3 + n) / 3 = n / 3 + 1 := by omega
      have hrest : ((stream ps).take n).length = n := by
        have htotal := congrArg List.length hread
        rw [List.length_append, hlen, hn] at htotal
        omega
      have hcycle : (feed m p.bytes).cycle = 0 := by rw [feed_aligned hm, apply_cycle]
      have hps := ih hcycle (List.take_prefix n (stream ps))
      rw [hrest] at hps
      rw [hn, hdiv, hread, applied_append, applied_aligned hm, hps]
      rfl

/-- The bytes of `read` went through `mouse_callback`, and the movements follow on them. -/
structure Follows (s : State) (read : List UInt8) : Prop where
  stands : ∃ cfg lost, (s.bus.ctl.back read).Stands [] cfg .keyboard true lost
  sofar : s.mouse = feed initial read
  row : rowCells s.drawn = (statusRow s.mouse).map some
  place : ∀ p ∈ s.drawn, p.row = mouseStatusRow ∧ mouseStatusCol ≤ p.col ∧
    p.col < mouseStatusCol + label.length

theorem sofar_bounds {read : List UInt8} (h : s.mouse = feed initial read) :
    (0 ≤ s.mouse.x ∧ s.mouse.x ≤ 300) ∧ 0 ≤ s.mouse.y ∧ s.mouse.y ≤ 300 := by
  rw [h]
  exact feed_bounds read (by decide) (by decide)

theorem follows_init (hw : Prompt world) {s₀ : State} (h : s₀.bus.ctl.Idle)
    (hleft : s₀.bus.ctl.out.length ≤ 16) (hmouse : s₀.mouse = initial) (hdrawn : s₀.drawn = []) :
    Follows (mouseInit world callback s₀) [] := by
  have hnil : s₀.bus.ctl.out.drop 16 = [] := List.drop_eq_nil_of_le hleft
  have hstands := programMouse_spec hw h
  rw [hnil] at hstands
  have hsofar : (mouseInit world callback s₀).mouse = feed initial [] := hmouse
  obtain ⟨hx, hy⟩ := sofar_bounds hsofar
  have hd : (mouseInit world callback s₀).drawn = mouseDrawStatus (mouseInit world callback s₀).mouse := by
    change s₀.drawn ++ mouseDrawStatus s₀.mouse = _
    rw [hdrawn]
    rfl
  refine ⟨⟨_, _, hstands⟩, hsofar, ?_, ?_⟩
  · rw [hd]
    exact rowCells_draw hx hy []
  · rw [hd]
    exact fun p hp => mouseDrawStatus_place _ hp

theorem Follows.waits {read : List UInt8} (h : Follows s read) :
    Follows { s with bus := settle world s.bus } read := by
  obtain ⟨cfg, lost, hstands⟩ := h.stands
  exact ⟨⟨cfg, lost, settle_keeps (Controller.kept_back Controller.Stands.kept read) hstands⟩,
    h.sofar, h.row, h.place⟩

/-- The first two bytes of a packet show nothing. -/
theorem callback_row (data : UInt8) (hm : m.cycle ≠ 2) :
    statusRow (mouseCallback m data) = statusRow m := by
  rw [mouseCallback]
  split
  · split <;> rfl
  · rfl
  · contradiction
  · rfl

theorem Follows.interrupt {read : List UInt8} (h : Follows s read) (hout : s.bus.ctl.out ≠ []) :
    ∃ b, Follows (interrupt world s) (read ++ [b]) := by
  have hs : Follows { s with bus := settle world s.bus } read := h.waits
  have hout' : (settle world s.bus).ctl.out ≠ [] :=
    (settle_keeps Controller.kept_out (List.prefix_refl _)).ne_nil hout
  obtain ⟨b, l, hbl⟩ := List.exists_cons_of_ne_nil hout'
  have hdata : (inData world s.bus).1 = b := by rw [inData, hbl, List.headD_cons]
  have hback : (inData world s.bus).2.ctl.back (read ++ [b]) = (settle world s.bus).ctl.back read := by
    simp [inData, Controller.back, hbl]
  obtain ⟨cfg, lost, hstands⟩ := hs.stands
  have hsofar : mouseCallback s.mouse b = feed initial (read ++ [b]) := by
    rw [feed_append, ← h.sofar]
    rfl
  refine ⟨b, ?_⟩
  rw [Mouse.interrupt, hdata]
  by_cases hcycle : s.mouse.cycle = 2
  · rw [if_pos hcycle]
    refine ⟨⟨cfg, lost, hback ▸ hstands⟩, hsofar, ?_, fun p hp => ?_⟩
    · obtain ⟨hx, hy⟩ := feed_bounds (m := initial) (read ++ [b]) (by decide) (by decide)
      rw [← hsofar] at hx hy
      exact rowCells_draw hx hy s.drawn
    · cases List.mem_append.mp hp with
      | inl hp => exact h.place p hp
      | inr hp => exact mouseDrawStatus_place _ hp
  · rw [if_neg hcycle]
    refine ⟨⟨cfg, lost, hback ▸ hstands⟩, hsofar, ?_, h.place⟩
    exact h.row.trans (congrArg _ (callback_row b hcycle).symm)

theorem reaches_follows (hw : Prompt world) (h : (pointer world callback).Reaches s) :
    ∃ read, Follows s read := by
  apply h.invariant
  · rintro s ⟨s₀, hidle, hleft, hmouse, hdrawn, rfl⟩
    exact ⟨[], follows_init hw hidle hleft hmouse hdrawn⟩
  · rintro s e s' ⟨read, hread⟩ ha hs
    cases e with
    | waits =>
      cases hs
      exact ⟨read, hread.waits⟩
    | irq12 =>
      cases hs
      obtain ⟨b, hb⟩ := hread.interrupt ha
      exact ⟨read ++ [b], hb⟩

/-- At any pace the bytes read and those that wait are the bytes of the movements: each movement that
was read whole is applied, in turn, and the status row shows where that leads. -/
theorem movements_shown (hw : Prompt world) (h : (pointer world callback).Reaches s) :
    ∃ read, read ++ (s.bus.ctl.take.out ++ s.bus.ctl.take.line) = stream s.bus.ctl.moved ∧
      s.mouse = feed initial read ∧
      applied initial read = (s.bus.ctl.moved.take (read.length / 3)).map Packet.stored ∧
      rowCells s.drawn = (statusRow s.mouse).map some ∧
      ∀ p ∈ s.drawn, p.row = mouseStatusRow ∧ mouseStatusCol ≤ p.col ∧
        p.col < mouseStatusCol + label.length := by
  obtain ⟨read, ⟨cfg, lost, hstands⟩, hsofar, hrow, hplace⟩ := reaches_follows hw h
  have hqueue : read ++ (s.bus.ctl.take.out ++ s.bus.ctl.take.line) = stream s.bus.ctl.moved := by
    have hback := hstands.queue
    rw [Controller.take_back, List.nil_append] at hback
    rw [← List.append_assoc]
    exact hback
  exact ⟨read, hqueue, hsofar, applied_prefix rfl (hqueue ▸ List.prefix_append _ _), hrow, hplace⟩

/-- To the right and up, with the left button down. -/
def drag : Packet := ⟨0x09, 5, 3, by decide⟩

/-- The movement is made at the first access behind `mouse_init`. -/
def dragged : ℕ → List Happening := fun n => (if n = 24 then [.moves drag] else []) ++ [.takes, .sends]

theorem dragged_prompt : Prompt dragged := by
  have htimeout : 0 < timeout / 2 := by decide
  intro n
  exact ⟨⟨n, le_rfl, by omega, by simp [dragged]⟩, ⟨n, le_rfl, by omega, by simp [dragged]⟩⟩

theorem reaches_waits (h : (pointer world callback).Reaches s) :
    (pointer world callback).Reaches { s with bus := settle world s.bus } :=
  have hallowed : (pointer world callback).allowed s .waits := trivial
  h.step hallowed rfl

theorem reaches_interrupt (h : (pointer world callback).Reaches s) (hout : s.bus.ctl.out ≠ []) :
    (pointer world callback).Reaches (interrupt world s) :=
  have hallowed : (pointer world callback).allowed s .irq12 := hout
  h.step hallowed rfl

/-- Three interrupts read it. -/
def afterDrag : State :=
  interrupt dragged (interrupt dragged (interrupt dragged { mouseInit dragged 0x8000 afterReset with
    bus := settle dragged (mouseInit dragged 0x8000 afterReset).bus }))

theorem afterDrag_reached : (pointer dragged 0x8000).Reaches afterDrag := by
  have hstart : (pointer dragged 0x8000).Reaches (mouseInit dragged 0x8000 afterReset) :=
    .start ⟨afterReset, afterReset_idle, by decide, rfl, rfl, rfl⟩
  have hfirst := reaches_interrupt (reaches_waits hstart) (by decide +kernel)
  have hsecond := reaches_interrupt hfirst (by decide +kernel)
  rw [afterDrag]
  exact reaches_interrupt hsecond (by decide +kernel)

theorem movements_shown_drag : afterDrag.mouse = ⟨0, #v[9, 5, 3], 45, 9, 1⟩ ∧
    rowCells afterDrag.drawn = ((text "Mouse x=045 y=009 L M R").zip
      (List.replicate 18 (.lightGrey, .black) ++ (.black, .green) ::
        List.replicate 4 (.lightGrey, .black))).map some := by
  obtain ⟨read, hqueue, hmouse, -, hrow, -⟩ := movements_shown dragged_prompt afterDrag_reached
  have hmoved : stream afterDrag.bus.ctl.moved = [0x09, 5, 3] := by decide +kernel
  have hnone : afterDrag.bus.ctl.take.out ++ afterDrag.bus.ctl.take.line = [] := by decide +kernel
  rw [hmoved, hnone, List.append_nil] at hqueue
  rw [hqueue] at hmouse
  rw [hrow, hmouse]
  exact ⟨rfl, rfl⟩

end run

end ShadOS.Mouse
