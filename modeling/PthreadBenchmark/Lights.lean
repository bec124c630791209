import PthreadBenchmark.Shared.Strtol
import PthreadBenchmark.Shared.Int32
import Mathlib.Logic.Function.Basic

/-! # The lights of `xlights.c`

A light is set by writing numbers to files. A file is not emptied when it is opened, so what is
written covers only the beginning of what was there. A call of `write` may store fewer bytes than it
is asked to, which `write_int` takes for a success. -/

namespace PthreadBenchmark.Lights

open Strtol

/-- A call of `write` that has stored `amt` bytes of the number. -/
structure Write where
  path : String
  val : ℤ
  amt : ℕ
  deriving DecidableEq, Repr

/-- The files that can be opened. `written` are the calls of `write` that have not failed; it is
history. -/
structure World where
  files : String → Option (List Char)
  writes : ℕ
  written : List Write

/-- What the calls of `write` return: the number of bytes that are stored, or nothing for `-1`. -/
abbrev Outcomes : Type := ℕ → Option ℕ

structure LedData where
  brightness : String
  delayOn : String
  delayOff : String

def redled : LedData where
  brightness := "/sys/class/leds/red/brightness"
  delayOn := "/sys/class/leds/red/delay_on"
  delayOff := "/sys/class/leds/red/delay_off"

def greenled : LedData where
  brightness := "/sys/class/leds/green/brightness"
  delayOn := "/sys/class/leds/green/delay_on"
  delayOff := "/sys/class/leds/green/delay_off"

def blueled : LedData where
  brightness := "/sys/class/leds/blue/brightness"
  delayOn := "/sys/class/leds/blue/delay_on"
  delayOff := "/sys/class/leds/blue/delay_off"

def lcd : LedData where
  brightness := "/sys/class/leds/lcd_backlight0/brightness"
  delayOn := "/sys/class/leds/lcd_backlight0/delay_on"
  delayOff := "/sys/class/leds/lcd_backlight0/delay_off"

structure LightState where
  color : BitVec 32
  flashOnMS : BitVec 32
  flashOffMS : BitVec 32
  deriving DecidableEq, Repr

/-- `"%d\n"` -/
def line (val : ℤ) : List Char := decimal val ++ ['\n']

/-- What a `write` at the beginning of a file leaves in it. -/
def overwrite (content bytes : List Char) : List Char := bytes ++ content.drop bytes.length

def writeInt (outcomes : Outcomes) (path : String) (val : ℤ) : StateM World ℤ := do
  let w ← get
  match w.files path with
  | none => return -1
  | some content =>
    match outcomes w.writes with
    | none =>
      set { w with writes := w.writes + 1 }
      return -1
    | some amt =>
      set ({
        files := Function.update w.files path (some (overwrite content ((line val).take amt)))
        writes := w.writes + 1
        written := w.written ++ [⟨path, val, amt⟩] } : World)
      return 0

/-- The buffer has room for 11 characters and the zero behind them. -/
def readInt (path : String) (w : World) : ℤ :=
  match w.files path with
  | none => -1
  | some content => if content = [] then -1 else toInt (strtol (content.take 11))

/-- `(color >> shift) & 0xff` -/
def component (color : BitVec 32) (shift : ℕ) : ℕ := ((color >>> shift) &&& 0xff#32).toNat

def rgbToBrightness (state : LightState) : ℕ :=
  let color := state.color &&& 0x00ffffff#32
  (77 * component color 16 + 150 * component color 8 + 29 * component color 0) >>> 8

/-- `dev` says whether there is a device. -/
def setLightBacklight (outcomes : Outcomes) (dev : Bool) (state : LightState) :
    StateM World ℤ := do
  if !dev then
    return -1
  writeInt outcomes lcd.brightness (rgbToBrightness state * 39)

/-- Two delays are written for a light that is on. -/
def writeDelays (outcomes : Outcomes) (led : LedData) (on : ℕ) (delayOn delayOff : ℤ) :
    StateM World Unit := do
  if on ≠ 0 then
    let _ ← writeInt outcomes led.delayOn delayOn
    let _ ← writeInt outcomes led.delayOff delayOff

def setSpeakerLightLocked (outcomes : Outcomes) (dev : Bool) (state : LightState) :
    StateM World ℤ := do
  if !dev then
    return -1
  let red := component state.color 16
  let green := component state.color 8
  let blue := component state.color 0
  let delayOn := state.flashOnMS.toInt
  let delayOff := state.flashOffMS.toInt
  if delayOn > 0 && delayOff > 0 then
    writeDelays outcomes redled red delayOn delayOff
    writeDelays outcomes greenled green delayOn delayOff
    writeDelays outcomes blueled blue delayOn delayOff
  else
    let _ ← writeInt outcomes redled.brightness red
    let _ ← writeInt outcomes greenled.brightness green
    let _ ← writeInt outcomes blueled.brightness blue
  return 0

/-- A call for a device. -/
inductive Call where
  | backlight (state : LightState)
  | speaker (state : LightState)
  deriving DecidableEq, Repr

def Call.run (outcomes : Outcomes) : Call → StateM World ℤ
  | .backlight state => setLightBacklight outcomes true state
  | .speaker state => setSpeakerLightLocked outcomes true state

/-- The calls in turn. -/
def runCalls (outcomes : Outcomes) (calls : List Call) (w : World) : World :=
  calls.foldl (fun w call => (call.run outcomes w).2) w

/-- The last call of `write` for the file. -/
def lastWrite (path : String) (w : World) : Option Write :=
  (w.written.filter fun e => e.path = path).getLast?

/-- All of the number has been stored. -/
def Write.Complete (e : Write) : Prop := (line e.val).length ≤ e.amt

instance (e : Write) : Decidable e.Complete := inferInstanceAs (Decidable (_ ≤ _))

/-! ## What is read is what was written last

A number ends with its line, so what is left of an earlier, longer content of a file does no
harm when all of the line has been stored. -/

open Strtol

variable {outcomes : Outcomes} {path path' : String} {val : ℤ} {content rest : List Char}
  {w : World} {e : Write} {amt : ℕ} {state : LightState} {α : Type}

/-! ## One file -/

theorem ends_line : Ends ('\n' :: rest) := by
  intro c hc
  cases hc
  decide

theorem ends_take_line (n : ℕ) : Ends (('\n' :: rest).take n) := by
  cases n with
  | zero => exact fun c hc => by cases hc
  | succ n => exact ends_line

theorem strtol_line (hval : InIntRange val) :
    strtol ((line val ++ rest).take 11) = val := by
  obtain ⟨hlo, hhi⟩ := hval
  have hlength := length_decimal_le hlo hhi
  rw [line, List.append_assoc, List.singleton_append, List.take_append,
    List.take_of_length_le hlength]
  exact strtol_decimal (by omega) (by omega) (ends_take_line _)

theorem line_ne_nil (val : ℤ) : line val ++ rest ≠ [] := by
  simp [line]

/-- The number is read, whatever was in the file before. -/
theorem readInt_overwrite (hval : InIntRange val) (hall : (line val).length ≤ amt)
    (hfile : w.files path = some (overwrite content ((line val).take amt))) :
    readInt path w = val := by
  rw [List.take_of_length_le hall] at hfile
  simp only [readInt, hfile]
  rw [overwrite, if_neg (line_ne_nil val), strtol_line hval, toInt_of_inIntRange hval]

/-! ## All files -/

/-- Each file whose last write is complete has the number in it. -/
def Written (w : World) : Prop :=
  ∀ path e, lastWrite path w = some e → e.Complete → readInt path w = e.val

/-- The calls keep the property. -/
def Keeps (I : World → Prop) (m : StateM World α) : Prop := ∀ w, I w → I (m w).2

theorem Keeps.pure {I : World → Prop} (a : α) : Keeps I (Pure.pure a : StateM World α) :=
  fun _ h => h

theorem Keeps.bind {I : World → Prop} {β : Type} {m : StateM World α} {f : α → StateM World β}
    (hm : Keeps I m) (hf : ∀ a, Keeps I (f a)) : Keeps I (m >>= f) :=
  fun w h => hf _ _ (hm w h)

theorem writeInt_some (hfile : w.files path = some content)
    (hok : outcomes w.writes = some amt) : writeInt outcomes path val w = (0, {
      files := Function.update w.files path (some (overwrite content ((line val).take amt)))
      writes := w.writes + 1
      written := w.written ++ [⟨path, val, amt⟩] }) := by
  simp only [writeInt, bind, StateT.bind, get, getThe, MonadStateOf.get, StateT.get, pure, hfile,
    hok]
  rfl

theorem writeInt_failed (hfile : w.files path = some content) (hok : outcomes w.writes = none) :
    writeInt outcomes path val w = (-1, { w with writes := w.writes + 1 }) := by
  simp only [writeInt, bind, StateT.bind, get, getThe, MonadStateOf.get, StateT.get, pure, hfile,
    hok]
  rfl

theorem writeInt_none (hfile : w.files path = none) :
    writeInt outcomes path val w = (-1, w) := by
  simp only [writeInt, bind, StateT.bind, get, getThe, MonadStateOf.get, StateT.get, pure, hfile]
  rfl

/-- A property that each successful write keeps is kept by all writes. -/
theorem keeps_writeInt {I : World → Prop} (hfailed : ∀ w n, I w → I { w with writes := n })
    (hok : ∀ w content amt, I w → w.files path = some content → I {
      files := Function.update w.files path (some (overwrite content ((line val).take amt)))
      writes := w.writes + 1
      written := w.written ++ [⟨path, val, amt⟩] }) : Keeps I (writeInt outcomes path val) := by
  intro w h
  cases hfile : w.files path with
  | none =>
      rw [writeInt_none hfile]
      exact h
  | some content =>
      cases houtcome : outcomes w.writes with
      | none =>
          rw [writeInt_failed hfile houtcome]
          exact hfailed w _ h
      | some amt =>
          rw [writeInt_some hfile houtcome]
          exact hok w content amt h hfile

theorem readInt_congr {w' : World} (h : w'.files path = w.files path) :
    readInt path w' = readInt path w := by
  rw [readInt, h]
  rfl

theorem component_eq (color : BitVec 32) (shift : ℕ) :
    component color shift = color.toNat / 2 ^ shift % 256 := by
  rw [component, BitVec.toNat_and, BitVec.toNat_ushiftRight, Nat.shiftRight_eq_div_pow]
  exact Nat.and_two_pow_sub_one_eq_mod _ 8

theorem component_lt (color : BitVec 32) (shift : ℕ) : component color shift < 256 := by
  rw [component_eq]
  exact Nat.mod_lt _ (by decide)

theorem toNat_mask (color : BitVec 32) :
    (color &&& 0x00ffffff#32).toNat = color.toNat % 2 ^ 24 := by
  rw [BitVec.toNat_and]
  exact Nat.and_two_pow_sub_one_eq_mod _ 24

/-- The upper byte of a color does not matter. -/
theorem rgbToBrightness_eq (state : LightState) :
    rgbToBrightness state = (77 * component state.color 16 + 150 * component state.color 8 +
      29 * component state.color 0) / 256 := by
  have hmask : ∀ shift ∈ [16, 8, 0], component (state.color &&& 0x00ffffff#32) shift =
      component state.color shift := by
    intro shift hshift
    rw [component_eq, component_eq, toNat_mask]
    simp only [List.mem_cons, List.not_mem_nil, or_false] at hshift
    rcases hshift with rfl | rfl | rfl <;> omega
  rw [rgbToBrightness, Nat.shiftRight_eq_div_pow]
  simp only [hmask 16 (by decide), hmask 8 (by decide), hmask 0 (by decide)]

/-- The brightness is between those of the darkest and of the brightest component. -/
theorem rgbToBrightness_between {lo hi : ℕ}
    (h : ∀ shift ∈ [16, 8, 0], lo ≤ component state.color shift ∧
      component state.color shift ≤ hi) :
    lo ≤ rgbToBrightness state ∧ rgbToBrightness state ≤ hi := by
  have hred := h 16 (by decide)
  have hgreen := h 8 (by decide)
  have hblue := h 0 (by decide)
  rw [rgbToBrightness_eq]
  omega

theorem rgbToBrightness_lt (state : LightState) : rgbToBrightness state < 256 := by
  have hbounds : ∀ shift ∈ [16, 8, 0], 0 ≤ component state.color shift ∧
      component state.color shift ≤ 255 :=
    fun shift _ => ⟨Nat.zero_le _, Nat.le_of_lt_succ (component_lt _ _)⟩
  exact Nat.lt_succ_of_le (rgbToBrightness_between hbounds).2

theorem inIntRange_component (color : BitVec 32) (shift : ℕ) :
    InIntRange (component color shift) := by
  have hlt := component_lt color shift
  exact ⟨by omega, by omega⟩

theorem inIntRange_brightness (state : LightState) : InIntRange (rgbToBrightness state * 39) := by
  have hlt := rgbToBrightness_lt state
  exact ⟨by omega, by omega⟩

theorem inIntRange_delay (x : BitVec 32) : InIntRange x.toInt :=
  ⟨BitVec.le_toInt x, BitVec.toInt_lt⟩

/-! ## Calls -/

theorem keeps_writeDelays {I : World → Prop} {led : LedData} {on : ℕ} {delayOn delayOff : ℤ}
    (hon : Keeps I (writeInt outcomes led.delayOn delayOn))
    (hoff : Keeps I (writeInt outcomes led.delayOff delayOff)) :
    Keeps I (writeDelays outcomes led on delayOn delayOff) := by
  rw [writeDelays]
  split
  · exact hon.bind fun _ => hoff.bind fun _ => .pure _
  · exact .pure _

/-- What all writes of a call keep is kept by the call. -/
theorem keeps_speaker {I : World → Prop} {dev : Bool}
    (hwrite : ∀ path val, path ≠ lcd.brightness → InIntRange val →
      Keeps I (writeInt outcomes path val)) :
    Keeps I (setSpeakerLightLocked outcomes dev state) := by
  have hon := inIntRange_delay state.flashOnMS
  have hoff := inIntRange_delay state.flashOffMS
  rw [setSpeakerLightLocked]
  split
  · exact .pure _
  · dsimp only
    split
    · exact (keeps_writeDelays (hwrite _ _ (by decide) hon) (hwrite _ _ (by decide) hoff)).bind
        fun _ => (keeps_writeDelays (hwrite _ _ (by decide) hon) (hwrite _ _ (by decide) hoff)).bind
        fun _ => (keeps_writeDelays (hwrite _ _ (by decide) hon) (hwrite _ _ (by decide) hoff)).bind
        fun _ => .pure _
    · exact (hwrite _ _ (by decide) (inIntRange_component _ _)).bind
        fun _ => (hwrite _ _ (by decide) (inIntRange_component _ _)).bind
        fun _ => (hwrite _ _ (by decide) (inIntRange_component _ _)).bind fun _ => .pure _

theorem keeps_runCalls {I : World → Prop} (calls : List Call)
    (hcall : ∀ call ∈ calls, Keeps I (call.run outcomes)) (hw : I w) :
    I (runCalls outcomes calls w) := by
  induction calls generalizing w with
  | nil => exact hw
  | cons call calls ih =>
      refine ih (fun call hmem => hcall call (List.mem_cons_of_mem _ hmem)) ?_
      exact hcall call List.mem_cons_self w hw

/-- Of the `4992` of a grey display one digit is stored, and the others of `9945` show. -/
example : readInt lcd.brightness (runCalls (fun n => some (5 - 4 * n))
    [.backlight ⟨0x00ffffff#32, 0#32, 0#32⟩, .backlight ⟨0x00808080#32, 0#32, 0#32⟩]
    ⟨fun _ => some [], 0, []⟩) = 4945 := by
  decide

variable (outcomes w state) in
/-- When all of it is stored, the brightness of the display is that of the color, between those of
its components, and stays whatever is done with the other lights. -/
theorem backlight_stays (states : List LightState)
    (hok : (setLightBacklight outcomes true state w).1 = 0)
    (hall : ∀ amt, outcomes w.writes = some amt →
      (line (rgbToBrightness state * 39)).length ≤ amt) :
    readInt lcd.brightness (runCalls outcomes (states.map .speaker)
      (setLightBacklight outcomes true state w).2) = rgbToBrightness state * 39 ∧
    ∀ lo hi, (∀ shift ∈ [16, 8, 0], lo ≤ component state.color shift ∧
      component state.color shift ≤ hi) →
      lo ≤ rgbToBrightness state ∧ rgbToBrightness state ≤ hi := by
  refine ⟨?_, fun lo hi h => rgbToBrightness_between h⟩
  have hwrite : readInt lcd.brightness (setLightBacklight outcomes true state w).2 =
      rgbToBrightness state * 39 := by
    have hcall : setLightBacklight outcomes true state w =
        writeInt outcomes lcd.brightness (rgbToBrightness state * 39) w := rfl
    rw [hcall] at hok ⊢
    cases hfile : w.files lcd.brightness with
    | none =>
        rw [writeInt_none hfile] at hok
        cases hok
    | some content =>
        cases houtcome : outcomes w.writes with
        | none =>
            rw [writeInt_failed hfile houtcome] at hok
            cases hok
        | some amt =>
            rw [writeInt_some hfile houtcome]
            have hfile' : Function.update w.files lcd.brightness (some (overwrite content
                ((line (rgbToBrightness state * 39)).take amt))) lcd.brightness = _ :=
              Function.update_self ..
            exact readInt_overwrite (inIntRange_brightness state) (hall amt houtcome) hfile'
  refine keeps_runCalls (I := fun w => readInt lcd.brightness w = rgbToBrightness state * 39)
    (states.map .speaker) (fun call hmem => ?_) hwrite
  obtain ⟨other, -, rfl⟩ := List.mem_map.mp hmem
  refine keeps_speaker fun path val hpath hval => keeps_writeInt (fun _ _ h => h) ?_
  intro w content amt hread _
  rw [← hread]
  exact readInt_congr (Function.update_of_ne (Ne.symm hpath) ..)

/-- A grey display, with a light that blinks afterwards. -/
theorem backlight_stays_grey :
    readInt lcd.brightness (runCalls (fun _ => some 5) ([⟨0x00ff0000#32, 5#32, 7#32⟩].map .speaker)
      (setLightBacklight (fun _ => some 5) true ⟨0x00808080#32, 0#32, 0#32⟩
        ⟨fun _ => some [], 0, []⟩).2) = 128 * 39 := by
  have hstays := (backlight_stays (fun _ => some 5) ⟨fun _ => some [], 0, []⟩
    ⟨0x00808080#32, 0#32, 0#32⟩ [⟨0x00ff0000#32, 5#32, 7#32⟩] rfl
    (by rintro amt ⟨⟩; decide)).1
  rw [hstays]
  decide

end PthreadBenchmark.Lights
