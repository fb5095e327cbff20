import ShadOS.Serial.Source

/-! # What arrives at the other end of the line

`serial_putc` writes only to an empty holding register. So behind `serial_init`
every character leaves once, in order, at 38400 baud with eight bits and no
parity, whatever pace the line has; and what arrives is read in order unless it
was overrun.
-/

namespace ShadOS.Serial
open Machine Strings

namespace Uart
variable {u : Uart} {e : Happening} {es : List Happening}

/-- The registers as `serial_init` leaves them, the interrupts apart. -/
def Configured (u : Uart) : Prop := u.settings = ⟨u.settings.interruptEnable, 0, 0x03, 0x0B, 0x03, 0⟩

/-- A character as the other end expects it: divisor 3, eight bits, no parity, one stop bit. -/
def plain (c : UInt8) : Sent := ⟨c, 3, 0x03⟩

/-- The characters that left, and those that are about to. -/
def shown (u : Uart) : List Sent :=
  u.wire ++ (u.shifting.toList ++ u.holding.toList).map plain

theorem Configured.dlab (h : u.Configured) : u.settings.dlab = false := by
  have hclosed : Nat.testBit 0x03 7 = false := by decide
  rw [h]
  exact hclosed

@[simp] theorem happen_settings : (u.happen e).settings = u.settings := by
  cases e <;> rfl

@[simp] theorem happen_overwritten : (u.happen e).overwritten = u.overwritten := by
  cases e <;> rfl

theorem Configured.congr (h : u.Configured) {u' : Uart} (hs : u'.settings = u.settings) :
    u'.Configured := by
  rw [Configured, hs]
  exact h

theorem Configured.happen_shown (h : u.Configured) (e : Happening) : (u.happen e).shown = u.shown := by
  cases e with
  | sent =>
    have hd : u.settings.divisor = 3 := by
      rw [h]
      rfl
    have hc : u.settings.lineControl = 0x03 := by rw [h]
    simp [shown, Uart.happen, hd, hc, plain]
  | arrives b => rfl

theorem happen_holding (h : u.holding = none) (e : Happening) : (u.happen e).holding = none := by
  cases e with
  | sent => rfl
  | arrives b => exact h

theorem happen_overruns : u.overruns ≤ (u.happen e).overruns := by
  cases e with
  | sent => exact le_rfl
  | arrives b => exact Nat.le_add_right _ _

theorem happen_buffer (h : (u.happen e).overruns = u.overruns) :
    (u.happen e).buffer.toList = u.buffer.toList ++ e.byte.toList := by
  cases e with
  | sent => simp [happen, Happening.byte]
  | arrives b =>
    have hnone : u.buffer.toList = [] := by simpa [happen] using h
    simp [happen, Happening.byte, hnone]

/-- What happens between two accesses. -/
theorem Configured.happenings (h : u.Configured) (es : List Happening) :
    (es.foldl Uart.happen u).Configured ∧ (es.foldl Uart.happen u).shown = u.shown ∧
      (es.foldl Uart.happen u).overwritten = u.overwritten ∧
      u.overruns ≤ (es.foldl Uart.happen u).overruns ∧
      ((es.foldl Uart.happen u).overruns = u.overruns →
        (es.foldl Uart.happen u).buffer.toList = u.buffer.toList ++ es.filterMap Happening.byte) := by
  induction es generalizing u with
  | nil => simpa using h
  | cons e es ih =>
    obtain ⟨hc, hs, hw, hle, hb⟩ := ih (h.congr happen_settings)
    have hle₁ : u.overruns ≤ (u.happen e).overruns := happen_overruns
    refine ⟨hc, hs.trans (h.happen_shown e), hw.trans (by simp), hle₁.trans hle, fun heq => ?_⟩
    rw [List.foldl_cons] at heq ⊢
    have heq₁ : (u.happen e).overruns = u.overruns := by omega
    rw [hb (by omega), happen_buffer heq₁, List.append_assoc]
    cases hbyte : e.byte <;> simp [hbyte]

theorem happenings_holding (h : u.holding = none) (es : List Happening) :
    (es.foldl Uart.happen u).holding = none := by
  induction es generalizing u with
  | nil => exact h
  | cons e es ih => exact ih (happen_holding h e)

theorem happenings_sent (h : .sent ∈ es) (u : Uart) : (es.foldl Uart.happen u).holding = none := by
  induction es generalizing u with
  | nil => cases h
  | cons e es ih =>
    cases List.mem_cons.mp h with
    | inl he =>
      subst he
      exact happenings_holding rfl es
    | inr he => exact ih he _

theorem lineStatus_empty : u.lineStatus &&& 0x20 = 0 ↔ u.holding ≠ none := by
  rw [lineStatus]
  cases u.buffer <;> cases u.holding <;> cases u.shifting <;> simp

theorem lineStatus_data : u.lineStatus &&& 0x01 = 0 ↔ u.buffer = none := by
  rw [lineStatus]
  cases u.buffer <;> cases u.holding <;> cases u.shifting <;> simp

end Uart

variable {world : ℕ → List Happening} {s s' s'' : Line} {out out' got got' : List UInt8}

theorem arrivals_append {a b c : ℕ} (hab : a ≤ b) (hbc : b ≤ c) :
    arrivals world a b ++ arrivals world b c = arrivals world a c := by
  rw [arrivals, arrivals, arrivals, ← List.flatMap_append]
  congr 1
  have h : List.range' a (b - a) 1 ++ List.range' (a + 1 * (b - a)) (c - b) 1 =
      List.range' a (b - a + (c - b)) 1 := List.range'_append
  rw [one_mul, Nat.add_sub_cancel' hab] at h
  rw [h]
  congr 1
  omega

/-! ## What an access adds on both ways -/

/-- From `s` to `s'` the driver adds `out` to the line, and takes `got` from it. -/
structure Moves (world : ℕ → List Happening) (s s' : Line) (out got : List UInt8) : Prop where
  now : s.now ≤ s'.now
  configured : s'.uart.Configured
  shown : s'.uart.shown = s.uart.shown ++ out.map Uart.plain
  overwritten : s'.uart.overwritten = s.uart.overwritten
  overruns : s.uart.overruns ≤ s'.uart.overruns
  heard : s'.uart.overruns = s.uart.overruns →
    got ++ s'.uart.buffer.toList = s.uart.buffer.toList ++ arrivals world s.now s'.now

namespace Moves

theorem refl (h : s.uart.Configured) : Moves world s s [] [] :=
  ⟨le_rfl, h, by simp, rfl, le_rfl, fun _ => by simp [arrivals]⟩

theorem trans (h : Moves world s s' out got) (h' : Moves world s' s'' out' got') :
    Moves world s s'' (out ++ out') (got ++ got') := by
  have hle := h.overruns
  have hle' := h'.overruns
  refine ⟨h.now.trans h'.now, h'.configured, ?_, h'.overwritten.trans h.overwritten, hle.trans hle',
    fun heq => ?_⟩
  · rw [h'.shown, h.shown, List.append_assoc, ← List.map_append]
  · rw [List.append_assoc, h'.heard (by omega), ← List.append_assoc, h.heard (by omega),
      List.append_assoc, arrivals_append h.now h'.now]

theorem settle (world : ℕ → List Happening) (h : s.uart.Configured) :
    Moves world s (settle world s) [] [] := by
  obtain ⟨hc, hs, hw, hle, hb⟩ := h.happenings (world s.now)
  refine ⟨Nat.le_succ _, hc, ?_, hw, hle, fun heq => ?_⟩
  · rw [List.map_nil, List.append_nil]
    exact hs
  have harr : arrivals world s.now (Serial.settle world s).now =
      (world s.now).filterMap Happening.byte := by
    simp [arrivals, Serial.settle]
  rw [harr]
  exact hb heq

/-- A byte written while nothing waits. -/
theorem put (h : s.uart.Configured) (h0 : s.uart.holding = none) (c : UInt8) :
    Moves world s (outb world s com1 c.toNat) [c] [] := by
  have hm := settle world h
  have hhold : (Serial.settle world s).uart.holding = none := Uart.happenings_holding h0 _
  have hwrite : outb world s com1 c.toNat = { Serial.settle world s with
      uart := { (Serial.settle world s).uart with holding := some c } } := by
    rw [outb, Uart.write, if_pos ⟨rfl, hm.configured.dlab⟩, hhold]
    simp
  rw [hwrite]
  refine ⟨hm.now, hm.configured, ?_, hm.overwritten, hm.overruns, hm.heard⟩
  have hs := hm.shown
  rw [List.map_nil, List.append_nil] at hs
  rw [← hs, Uart.shown, Uart.shown, hhold]
  simp

/-- The byte that arrived is taken. -/
theorem take (h : s.uart.Configured) (h0 : s.uart.buffer ≠ none) :
    Moves world s (serialReadChar world s).2 [] [(serialReadChar world s).1] := by
  have hm := settle world h
  have hread : serialReadChar world s = ((Serial.settle world s).uart.buffer.getD 0,
      { Serial.settle world s with
        uart := { (Serial.settle world s).uart with buffer := none } }) := by
    rw [serialReadChar, inb, Uart.read, if_pos rfl, if_neg (by simp [hm.configured.dlab])]
    simp
  have hsome : ∀ (es : List Happening) (u : Uart), u.buffer ≠ none → (es.foldl Uart.happen u).buffer ≠ none := by
    intro es
    induction es with
    | nil => exact fun _ hu => hu
    | cons e es ih =>
      intro u hu
      apply ih
      cases e with
      | sent => exact hu
      | arrives b => exact Option.some_ne_none b
  obtain ⟨b, hb⟩ := Option.ne_none_iff_exists'.mp (hsome (world s.now) s.uart h0)
  have hb : (Serial.settle world s).uart.buffer = some b := hb
  rw [hread]
  refine ⟨hm.now, hm.configured, hm.shown, hm.overwritten, hm.overruns, fun heq => ?_⟩
  have hheard := hm.heard heq
  rw [hb] at hheard ⊢
  exact hheard

end Moves

/-! ## The routines -/

/-- `serial_putc` waits as long as it must. -/
theorem serialPutc_spec (hfair : Fair world) (h : s.uart.Configured) (c : UInt8) :
    ∃ n s', (∀ fuel, n ≤ fuel → serialPutc world fuel s c = some s') ∧ Moves world s s' [c] [] := by
  obtain ⟨m, hm, hsent⟩ := hfair s.now
  obtain ⟨k, rfl⟩ := Nat.exists_eq_add_of_le hm
  induction k generalizing s with
  | zero =>
    have hs := Moves.settle world h
    have hhold : (settle world s).uart.holding = none := Uart.happenings_sent hsent _
    refine ⟨1, outb world (settle world s) com1 c.toNat, fun fuel hf => ?_,
      hs.trans (Moves.put hs.configured hhold c)⟩
    obtain ⟨f, rfl⟩ := Nat.exists_eq_add_of_le' hf
    exact if_neg (fun h0 => Uart.lineStatus_empty.mp h0 hhold)
  | succ k ih =>
    have hs := Moves.settle world h
    by_cases hhold : (settle world s).uart.holding = none
    · refine ⟨1, outb world (settle world s) com1 c.toNat, fun fuel hf => ?_,
        hs.trans (Moves.put hs.configured hhold c)⟩
      obtain ⟨f, rfl⟩ := Nat.exists_eq_add_of_le' hf
      exact if_neg (fun h0 => Uart.lineStatus_empty.mp h0 hhold)
    · have hnow : (settle world s).now + k = s.now + (k + 1) := Nat.succ_add_eq_add_succ s.now k
      obtain ⟨n, s', hrun, hmoves⟩ := ih hs.configured (Nat.le_add_right _ _) (hnow ▸ hsent)
      refine ⟨n + 1, s', fun fuel hf => ?_, hs.trans hmoves⟩
      obtain ⟨f, rfl⟩ : ∃ f, fuel = f + 1 := ⟨fuel - 1, by omega⟩
      exact (if_pos (Uart.lineStatus_empty.mpr hhold)).trans (hrun f (by omega))

/-- The bytes of a text, one after another. -/
theorem putAll_spec (hfair : Fair world) (h : s.uart.Configured) (bs : List UInt8) :
    ∃ n s', (∀ fuel, n ≤ fuel → bs.foldlM (serialPutc world fuel) s = some s') ∧
      Moves world s s' bs [] := by
  induction bs generalizing s with
  | nil => exact ⟨0, s, fun _ _ => rfl, .refl h⟩
  | cons c bs ih =>
    obtain ⟨n, s₁, hrun, hm⟩ := serialPutc_spec hfair h c
    obtain ⟨n', s₂, hrun', hm'⟩ := ih hm.configured
    refine ⟨max n n', s₂, fun fuel hf => ?_, hm.trans hm'⟩
    rw [List.foldlM_cons, hrun fuel (by omega)]
    exact hrun' fuel (by omega)

theorem serialWritestring_eq (fuel : ℕ) (s : Line) (str : CString) :
    serialWritestring world fuel s str.buffer =
      (Call.shows (.writestring str)).foldlM (serialPutc world fuel) s := by
  have hloop : ∀ bs : List UInt8, 0 ∉ bs → ∀ s, serialWritestring world fuel s (bs ++ [0]) =
      (bs.flatMap (fun c => if c = 10 then [13, 10] else [c])).foldlM (serialPutc world fuel) s := by
    intro bs
    induction bs with
    | nil => exact fun _ _ => rfl
    | cons c bs ih =>
      intro h0 s
      rw [List.mem_cons, not_or] at h0
      rw [List.cons_append, serialWritestring, if_pos (Ne.symm h0.1), List.flatMap_cons,
        List.foldlM_append]
      simp only [ih h0.2]
      by_cases hc : c = 10
      · subst hc
        simp [Option.bind_assoc]
      · simp [hc]
  exact hloop str.bytes str.noNul s

/-- The bytes it sends are those of the routine without the line. -/
theorem serialWriteHex_bytes (fuel : ℕ) (s : Line) (n : ℕ) : serialWriteHex world fuel s n =
    (Strings.serialWriteHex n).bind (fun bs => bs.foldlM (serialPutc world fuel) s) := by
  have hprefix : serialWritestring world fuel s (text "0x" ++ [0]) =
      (text "0x").foldlM (serialPutc world fuel) s :=
    serialWritestring_eq fuel s ⟨text "0x", by decide⟩
  have hbytes : Strings.serialWriteHex n = some (text "0x" ++ [28, 24, 20, 16, 12, 8, 4, 0].map
    (fun i => (text "0123456789ABCDEF").getD ((n >>> i) &&& 0xF) 0)) := rfl
  rw [serialWriteHex, hprefix, hbytes, Option.bind_some, List.foldlM_append]
  rfl

theorem serialWriteHex_eq (fuel : ℕ) (s : Line) (n : ℕ) : serialWriteHex world fuel s n =
    (Call.shows (.writeHex n)).foldlM (serialPutc world fuel) s := by
  rw [serialWriteHex_bytes, Strings.serialWriteHex_eq]
  rfl

/-- One call of a routine. -/
theorem Call.run_spec (hfair : Fair world) {c : Console} (h : c.line.uart.Configured) (call : Call) :
    ∃ n c' got, (∀ fuel, n ≤ fuel → call.run world fuel c = some c') ∧ c'.read = c.read ++ got ∧
      Moves world c.line c'.line call.shows got := by
  have hsend {bs : List UInt8} {f : ℕ → Option Line}
      (hf : ∀ fuel, f fuel = bs.foldlM (serialPutc world fuel) c.line) :
      ∃ n c' got, (∀ fuel, n ≤ fuel → (f fuel).map ({ c with line := · }) = some c') ∧
        c'.read = c.read ++ got ∧ Moves world c.line c'.line bs got := by
    obtain ⟨n, s', hrun, hm⟩ := putAll_spec hfair h bs
    refine ⟨n, { c with line := s' }, [], fun fuel hn => ?_, (List.append_nil _).symm, hm⟩
    rw [hf, hrun fuel hn]
    rfl
  cases call with
  | putc b => exact hsend (fun fuel => by simp [Call.shows])
  | writestring str => exact hsend (fun fuel => serialWritestring_eq fuel c.line str)
  | writeHex n => exact hsend (fun fuel => serialWriteHex_eq fuel c.line n)
  | poll =>
    have hs := Moves.settle world h
    by_cases h0 : (settle world c.line).uart.buffer = none
    · refine ⟨0, { c with line := settle world c.line }, [], fun fuel _ => ?_,
        (List.append_nil _).symm, hs⟩
      exact if_pos (Uart.lineStatus_data.mpr h0)
    · refine ⟨0, _, _, fun fuel _ => if_neg (fun hd => h0 (Uart.lineStatus_data.mp hd)), rfl, ?_⟩
      exact hs.trans (Moves.take hs.configured h0)

/-- A run of calls. -/
theorem calls_spec (hfair : Fair world) {c : Console} (h : c.line.uart.Configured) (cs : List Call) :
    ∃ n c' got, (∀ fuel, n ≤ fuel → calls world fuel c cs = some c') ∧ c'.read = c.read ++ got ∧
      Moves world c.line c'.line (cs.flatMap Call.shows) got := by
  induction cs generalizing c with
  | nil => exact ⟨0, c, [], fun _ _ => rfl, (List.append_nil _).symm, .refl h⟩
  | cons call cs ih =>
    obtain ⟨n, c₁, got, hrun, hread, hm⟩ := call.run_spec hfair h
    obtain ⟨n', c₂, got', hrun', hread', hm'⟩ := ih hm.configured
    refine ⟨max n n', c₂, got ++ got', fun fuel hf => ?_, ?_, hm.trans hm'⟩
    · rw [calls, List.foldlM_cons, hrun fuel (by omega)]
      exact hrun' fuel (by omega)
    · rw [hread', hread, List.append_assoc]

/-! ## From `serial_init` on -/

@[simp] theorem settle_settings (s : Line) : (settle world s).uart.settings = s.uart.settings := by
  have hfold : ∀ (es : List Happening) (u : Uart), (es.foldl Uart.happen u).settings = u.settings := by
    intro es
    induction es with
    | nil => exact fun _ => rfl
    | cons e es ih => exact fun u => (ih _).trans Uart.happen_settings
  exact hfold _ _

@[simp] theorem outb_settings (s : Line) (port v : ℕ) :
    (outb world s port v).uart.settings = s.uart.settings.write port v := by
  rw [outb, Uart.write]
  split
  · next h =>
    rw [settle_settings] at h
    simp [Settings.write, h.1, h.2]
  · simp

namespace Settings
variable (r : Settings) (v : ℕ)

theorem write_data : r.write com1 v = if r.dlab then { r with divisorLow := v } else r := rfl

theorem write_enable : r.write (com1 + 1) v =
    if r.dlab then { r with divisorHigh := v } else { r with interruptEnable := v } := rfl

theorem write_fifo : r.write (com1 + 2) v = { r with fifoControl := v } := rfl

theorem write_control : r.write (com1 + 3) v = { r with lineControl := v } := rfl

theorem write_modem : r.write (com1 + 4) v = { r with modemControl := v } := rfl

end Settings

/-- Whatever the registers held. The first write turns the interrupts off only if the divisor was
not selected. -/
theorem serialInit_spec (world : ℕ → List Happening) (s : Line) :
    (serialInit world s).uart.Configured ∧
    (serialInit world s).uart.settings.interruptEnable =
      if s.uart.settings.dlab then s.uart.settings.interruptEnable else 0 := by
  have hopen : Nat.testBit 0x80 7 = true := by decide
  have hset : (serialInit world s).uart.settings =
      ⟨if s.uart.settings.dlab then s.uart.settings.interruptEnable else 0, 0, 0x03, 0x0B, 0x03, 0⟩ := by
    simp only [serialInit, outb_settings]
    generalize s.uart.settings = r
    rw [Settings.write_enable r]
    cases r.dlab <;> simp [Settings.write_control, Settings.write_fifo, Settings.write_modem,
      Settings.write_enable, Settings.write_data, Settings.dlab, hopen]
  exact ⟨by rw [Uart.Configured, hset], by rw [hset]⟩

/-- Once more time has passed, everything is on the wire. -/
theorem Uart.happenings_idle {es : List Happening} (h : .sent ∈ es) {u : Uart} (h0 : u.holding = none) :
    (es.foldl Uart.happen u).shifting = none := by
  have hkeep : ∀ (es : List Happening) (u : Uart), u.holding = none → u.shifting = none →
      (es.foldl Uart.happen u).shifting = none := by
    intro es
    induction es with
    | nil => exact fun _ _ hs => hs
    | cons e es ih =>
      intro u hh hs
      apply ih _ (happen_holding hh e)
      cases e with
      | sent => exact hh
      | arrives b => exact hs
  induction es generalizing u with
  | nil => cases h
  | cons e es ih =>
    cases List.mem_cons.mp h with
    | inl he =>
      subst he
      exact hkeep es _ rfl h0
    | inr he => exact ih he (happen_holding h0 e)

theorem settle_iterate (world : ℕ → List Happening) (h : s.uart.Configured) (m : ℕ) :
    ((settle world)^[m] s).now = s.now + m ∧ Moves world s ((settle world)^[m] s) [] [] := by
  induction m with
  | zero => exact ⟨rfl, .refl h⟩
  | succ m ih =>
    rw [Function.iterate_succ_apply']
    obtain ⟨hnow, hm⟩ := ih
    exact ⟨by rw [settle, hnow]; rfl, hm.trans (.settle world hm.configured)⟩

theorem flushed (hfair : Fair world) (h : s.uart.Configured) :
    ∃ m, ((settle world)^[m] s).uart.wire = s.uart.shown := by
  obtain ⟨a, ha, hsent⟩ := hfair s.now
  obtain ⟨i, rfl⟩ := Nat.exists_eq_add_of_le ha
  obtain ⟨b, hb, hsent'⟩ := hfair (s.now + i + 1)
  obtain ⟨j, rfl⟩ := Nat.exists_eq_add_of_le hb
  obtain ⟨hnow, -⟩ := settle_iterate world h i
  obtain ⟨hnow', -⟩ := settle_iterate world h (i + 1 + j)
  obtain ⟨-, hm⟩ := settle_iterate world h (i + 1 + j + 1)
  -- the first character time empties the holding register, a later one the shift register
  have hhold : ∀ k, ((settle world)^[i + 1 + k] s).uart.holding = none := by
    intro k
    induction k with
    | zero =>
      rw [Nat.add_zero, Function.iterate_succ_apply']
      exact Uart.happenings_sent (hnow ▸ hsent) _
    | succ k ih =>
      rw [← Nat.add_assoc, Function.iterate_succ_apply']
      exact Uart.happenings_holding ih _
  have hshift : ((settle world)^[i + 1 + j + 1] s).uart.shifting = none := by
    rw [Function.iterate_succ_apply']
    refine Uart.happenings_idle ?_ (hhold j)
    rw [hnow', ← Nat.add_assoc]
    exact hsent'
  have hhold' := hhold (j + 1)
  have hshown := hm.shown
  rw [← Nat.add_assoc] at hhold'
  rw [Uart.shown, hshift, hhold', List.map_nil, List.append_nil] at hshown
  exact ⟨_, (List.append_nil _).symm.trans hshown⟩

/-- Behind `serial_init`, at any pace of the line: the calls return, and what they show leaves
completely, in order and in the format set, with nothing overwritten; what was read is, in order,
what arrived, unless a character was overrun. -/
theorem serial_line (hfair : Fair world) (s : Line) (read : List UInt8) (cs : List Call) :
    ∃ n c got, (∀ fuel, n ≤ fuel → calls world fuel ⟨serialInit world s, read⟩ cs = some c) ∧
      c.read = read ++ got ∧
      (∃ m, ((settle world)^[m] c.line).uart.wire =
        (serialInit world s).uart.shown ++ (cs.flatMap Call.shows).map Uart.plain) ∧
      c.line.uart.overwritten = (serialInit world s).uart.overwritten ∧
      (c.line.uart.overruns = (serialInit world s).uart.overruns →
        got ++ c.line.uart.buffer.toList = (serialInit world s).uart.buffer.toList ++
          arrivals world (serialInit world s).now c.line.now) := by
  obtain ⟨hc, -⟩ := serialInit_spec world s
  obtain ⟨n, c, got, hrun, hread, hm⟩ := calls_spec (c := ⟨serialInit world s, read⟩) hfair hc cs
  obtain ⟨m, hwire⟩ := flushed hfair hm.configured
  exact ⟨n, c, got, hrun, hread, ⟨m, hwire.trans hm.shown⟩, hm.overwritten, hm.heard⟩

/-- A character time passes before every third access. -/
def slowWorld (n : ℕ) : List Happening := if n % 3 = 0 then [.sent] else []

/-- A line that was never used. -/
def freshLine : Line := ⟨⟨⟨0, 0, 0, 0, 0, 0⟩, none, none, none, [], 0, 0⟩, 0⟩

/-- A new line and a number. -/
theorem serial_line_number : ∃ fuel c m, calls slowWorld fuel ⟨serialInit slowWorld freshLine, []⟩
      [.writestring ⟨[10], by decide⟩, .writeHex 0x2A] = some c ∧
    ((settle slowWorld)^[m] c.line).uart.wire =
      [13, 10, 48, 120, 48, 48, 48, 48, 48, 48, 50, 65].map Uart.plain := by
  have hfair : Fair slowWorld := fun n => ⟨3 * n, by omega, by simp [slowWorld]⟩
  obtain ⟨n, c, got, hrun, -, ⟨m, hwire⟩, -⟩ := serial_line hfair freshLine []
    [.writestring ⟨[10], by decide⟩, .writeHex 0x2A]
  exact ⟨n, c, m, hrun n le_rfl, hwire.trans (by decide)⟩

end ShadOS.Serial
