import SlipstreamIO.BlockSlices
import SlipstreamIO.ReadyBackends

/-! `dsp_file_channel`: a read or write of a regular file through dispatch_io, whose handler is invoked any
number of times, each with some of the data, and the last time with `done` set. -/
namespace SlipstreamIO.Engine
open BlockSlices

/-- What an invocation of a handler brings: a dispatch_data, which is memory in regions, or NULL; and an
error. -/
structure Delivery where
  data : Option (List (List UInt8)) := none
  error : Int32 := 0

def Delivery.bytes (d : Delivery) : List UInt8 := (d.data.getD []).flatten

/-- `struct dsp_io` with the memory of the caller, and what dsp_done was called with. -/
structure DspIo where
  copied : ℕ := 0
  buf : Block UInt8
  news : List DspNews := []

/-- The memory at the op's `addr` has the bytes the caller asked for, and may go on behind them. -/
structure IoBuf (len : ℕ) where
  block : Block UInt8
  room : len ≤ block.cells.length

namespace DspIo

/-- dispatch_data_apply over the regions from offset `o2` of the data on. -/
def applyRegions (len base : ℕ) : ℕ → Block UInt8 → List (List UInt8) → Block UInt8
  | _, buf, [] => buf
  | o2, buf, p :: rest =>
    let room := len - base
    let sz := if room - o2 < p.length then room - o2 else p.length
    applyRegions len base (o2 + p.length) (if room ≤ o2 then buf else buf.store (base + o2) (p.take sz)) rest

/-- What the handler of dispatch_io_read does with the data, done or not. -/
def copyIn (len : UInt32) (io : DspIo) (d : Delivery) : DspIo :=
  let got := d.bytes.length
  if 0 < got ∧ io.copied < len.toNat then
    let base := io.copied
    { io with
      buf := applyRegions len.toNat base 0 io.buf (d.data.getD [])
      copied := io.copied + if len.toNat - base < got then len.toNat - base else got }
  else io

/-- One invocation of the handler of dispatch_io_read. -/
def readHandler (op : Slot) (len : UInt32) (done : Bool) (io : DspIo) (d : Delivery) : DspIo :=
  let io := io.copyIn len d
  if !done then io
  else
    let res := if d.error ≠ 0 ∧ io.copied = 0 then -d.error else Int32.ofInt io.copied
    { io with news := io.news ++ [.done op res] }

/-- One invocation of the handler of dispatch_io_write; the data is what remains. -/
def writeHandler (op : Slot) (len : UInt32) (done : Bool) (io : DspIo) (d : Delivery) : DspIo :=
  if !done then io
  else
    let left := d.bytes.length
    let res := if d.error ≠ 0 ∧ left = len.toNat then -d.error else Int32.ofInt (len.toNat - left)
    { io with news := io.news ++ [.done op res] }

/-- The invocations of a handler for one request: `done` is set in the last. -/
def invoke (handler : Bool → DspIo → Delivery → DspIo) (io : DspIo) (early : List Delivery)
    (last : Delivery) : DspIo :=
  handler true (early.foldl (handler false) io) last

end DspIo

/-- A read through `dsp_file_channel`. -/
def dspFileRead (op : Slot) (len : UInt32) (buf : Block UInt8) (early : List Delivery) (last : Delivery) :
    DspIo :=
  DspIo.invoke (DspIo.readHandler op len) { buf := buf } early last

/-- A write through it. -/
def dspFileWrite (op : Slot) (len : UInt32) (buf : Block UInt8) (early : List Delivery) (last : Delivery) :
    DspIo :=
  DspIo.invoke (DspIo.writeHandler op len) { buf := buf } early last

/-- The data of a read's invocations, one behind the other. -/
def allData (early : List Delivery) (last : Delivery) : List UInt8 :=
  (early ++ [last]).flatMap Delivery.bytes

/-- A read as read(2) gives it: the first bytes of the data in the buffer, nothing past `len`, and one
answer, which counts them or, when no byte came, is an error. -/
structure ReadReassembles (op : Slot) (len : UInt32) (buf : Block UInt8) (early : List Delivery)
    (last : Delivery) : Prop where
  filled : (dspFileRead op len buf early last).buf.Filled buf ((allData early last).take len.toNat)
  once : ∃ res, (dspFileRead op len buf early last).news = [.done op res] ∧
    (res.toInt = (min len.toNat (allData early last).length : ℕ) ∨
      last.error ≠ 0 ∧ res = -last.error ∧ allData early last = [])

/-- A write: one answer, which counts what does not remain or, when nothing was written, is an error. -/
def WriteAnswers (op : Slot) (len : UInt32) (buf : Block UInt8) (early : List Delivery)
    (last : Delivery) : Prop :=
  ∃ res, (dspFileWrite op len buf early last).news = [.done op res] ∧
    (res.toInt = len.toNat - (last.bytes.length : ℤ) ∨
      last.error ≠ 0 ∧ res = -last.error ∧ last.bytes.length = len.toNat)

namespace DspIo
variable {b₀ : Block UInt8} {op : Slot} {len : UInt32}

/-- Regions are copied behind what is there, as far as the request goes. -/
theorem applyRegions_filled {n base o2 : ℕ} {buf : Block UInt8} {front pre : List UInt8}
    {regions : List (List UInt8)} (hroom : n ≤ b₀.cells.length) (hbase : front.length = base)
    (hpre : pre.length = o2) (hle : base ≤ n) (h : buf.Filled b₀ (front ++ pre.take (n - base))) :
    (applyRegions n base o2 buf regions).Filled b₀
      (front ++ (pre ++ regions.flatten).take (n - base)) := by
  induction regions generalizing o2 buf pre with
  | nil => rwa [List.flatten_nil, List.append_nil]
  | cons p rest ih =>
    rw [applyRegions, List.flatten_cons, ← List.append_assoc]
    apply ih
    · rw [List.length_append, hpre]
    · split
      · next hfull =>
        -- past the end of the request
        rwa [List.take_append_of_le_length (by omega)]
      · next hmore =>
        have hwhole : pre.take (n - base) = pre := List.take_of_length_le (by omega)
        have hat : base + o2 = (front ++ pre).length := by rw [List.length_append, hbase, hpre]
        have hclip : p.take (if n - base - o2 < p.length then n - base - o2 else p.length) =
            p.take (n - base - o2) := by
          split
          · rfl
          · rw [List.take_length, List.take_of_length_le (by omega)]
        rw [hwhole] at h
        rw [hclip, hat, List.take_append, hwhole, hpre, ← List.append_assoc]
        apply h.store
        rw [← hat, List.length_take]
        omega

/-- The bytes that came are in the buffer, as far as the request goes, and counted. -/
structure Copied (b₀ : Block UInt8) (n : ℕ) (came : List UInt8) (io : DspIo) : Prop where
  filled : io.buf.Filled b₀ (came.take n)
  counted : io.copied = min n came.length

theorem Copied.copyIn {came : List UInt8} {io : DspIo} (h : Copied b₀ len.toNat came io)
    (hroom : len.toNat ≤ b₀.cells.length) (d : Delivery) :
    Copied b₀ len.toNat (came ++ d.bytes) (io.copyIn len d) := by
  have hcounted := h.counted
  unfold DspIo.copyIn
  dsimp only
  split
  · next hcopy =>
    obtain ⟨-, hmore⟩ := hcopy
    have hbase : came.length = io.copied := by omega
    have hall : came.take len.toNat = came := List.take_of_length_le (by omega)
    refine ⟨?_, ?_⟩
    · rw [List.take_append, hall, hbase]
      have hstart : io.buf.Filled b₀ (came ++ ([] : List UInt8).take (len.toNat - io.copied)) := by
        rw [List.take_nil, List.append_nil, ← hall]
        exact h.filled
      exact applyRegions_filled hroom hbase rfl (by omega) hstart
    · rw [List.length_append]
      dsimp only
      split <;> omega
  · next hnone =>
    by_cases hsome : 0 < d.bytes.length
    · have hfull : ¬ io.copied < len.toNat := fun hmore => hnone ⟨hsome, hmore⟩
      refine ⟨?_, ?_⟩
      · rw [List.take_append_of_le_length (by omega)]
        exact h.filled
      · rw [List.length_append]
        omega
    · have hnil : d.bytes = [] := List.eq_nil_of_length_eq_zero (by omega)
      rwa [hnil, List.append_nil]

theorem copyIn_news (io : DspIo) (d : Delivery) : (io.copyIn len d).news = io.news := by
  unfold DspIo.copyIn
  dsimp only
  split <;> rfl

/-- Invocations without `done` copy, and say nothing yet. -/
theorem Copied.early (op : Slot) {came : List UInt8} {io : DspIo} (h : Copied b₀ len.toNat came io)
    (hroom : len.toNat ≤ b₀.cells.length) (ds : List Delivery) :
    Copied b₀ len.toNat (came ++ ds.flatMap Delivery.bytes)
      (ds.foldl (readHandler op len false) io) ∧
      (ds.foldl (readHandler op len false) io).news = io.news := by
  induction ds generalizing came io with
  | nil => exact ⟨by rwa [List.flatMap_nil, List.append_nil], rfl⟩
  | cons d ds ih =>
    obtain ⟨hcopied, hnews⟩ := ih (h.copyIn hroom d)
    rw [List.flatMap_cons, ← List.append_assoc]
    exact ⟨hcopied, hnews.trans (copyIn_news io d)⟩

theorem writeHandler_early (io : DspIo) (ds : List Delivery) :
    ds.foldl (writeHandler op len false) io = io := by
  induction ds with
  | nil => rfl
  | cons d ds ih => exact ih

end DspIo

section Requests
variable (op : Slot) (len : UInt32) (early : List Delivery) (last : Delivery)

/-- What a read does, whatever its handler is given. -/
theorem dspFileRead_spec (buf : IoBuf len.toNat) :
    (dspFileRead op len buf.block early last).buf.Filled buf.block
        ((allData early last).take len.toNat) ∧
      (dspFileRead op len buf.block early last).news = [.done op
        (if last.error ≠ 0 ∧ min len.toNat (allData early last).length = 0 then -last.error
          else Int32.ofInt (min len.toNat (allData early last).length : ℕ))] := by
  have hstart : DspIo.Copied buf.block len.toNat [] { buf := buf.block } := by
    refine ⟨?_, ?_⟩
    · rw [List.take_nil]
      exact Block.Filled.start buf.block
    · rw [List.length_nil, Nat.min_zero]
  obtain ⟨hcopied, hquiet⟩ := hstart.early op buf.room early
  have hlast := hcopied.copyIn buf.room last
  have hcame : [] ++ early.flatMap Delivery.bytes ++ last.bytes = allData early last := by
    rw [List.nil_append, allData, List.flatMap_append, List.flatMap_singleton]
  rw [hcame] at hlast
  refine ⟨hlast.filled, ?_⟩
  show DspIo.news _ ++ [DspNews.done op (if last.error ≠ 0 ∧ DspIo.copied _ = 0 then _ else _)] = _
  rw [hlast.counted, DspIo.copyIn_news, hquiet, List.nil_append]

theorem dspFileWrite_spec (buf : Block UInt8) :
    (dspFileWrite op len buf early last).news = [.done op
      (if last.error ≠ 0 ∧ last.bytes.length = len.toNat then -last.error
        else Int32.ofInt (len.toNat - last.bytes.length))] := by
  rw [dspFileWrite, DspIo.invoke, DspIo.writeHandler_early]
  rfl

theorem int32_ofInt_eq_iff (z : ℤ) : (Int32.ofInt z).toInt = z ↔ -2 ^ 31 ≤ z ∧ z < 2 ^ 31 := by
  constructor
  · intro h
    rw [← h]
    exact ⟨Int32.le_toInt _, Int32.toInt_lt _⟩
  · rintro ⟨hmin, hmax⟩
    exact Int32.toInt_ofInt_of_le hmin hmax

/-- A read through dispatch_io is one read exactly when what it copies can be counted in an int, and no
data comes with an error where none was asked for; a write, when what it wrote can. -/
theorem file_channel_iff (buf : IoBuf len.toNat) :
    (ReadReassembles op len buf.block early last ↔
      min len.toNat (allData early last).length < 2 ^ 31 ∧
        (last.error ≠ 0 → len.toNat = 0 → allData early last = [])) ∧
    (WriteAnswers op len buf.block early last ↔
      -2 ^ 31 ≤ (len.toNat : ℤ) - last.bytes.length ∧ (len.toNat : ℤ) - last.bytes.length < 2 ^ 31) := by
  obtain ⟨hfilled, hread⟩ := dspFileRead_spec op len early last buf
  have hwrite := dspFileWrite_spec op len early last buf.block
  generalize hcount : min len.toNat (allData early last).length = count at hread
  constructor
  · constructor
    · intro h
      obtain ⟨res, hnews, hres⟩ := h.once
      rw [hcount] at hres
      obtain rfl : _ = res := (DspNews.done.inj (List.singleton_inj.mp (hread.symm.trans hnews))).2
      by_cases herror : last.error ≠ 0 ∧ count = 0
      · rw [if_pos herror] at hres
        refine ⟨by omega, fun _ _ => ?_⟩
        rcases hres with hzero | ⟨-, -, hnil⟩
        · have hneg : -last.error = -0 := by
            rw [herror.2] at hzero
            exact Int32.toInt_inj.mp hzero
          exact absurd (Int32.neg_inj.mp hneg) herror.1
        · exact hnil
      · rw [if_neg herror] at hres
        rcases hres with hres | ⟨hne, -, hnil⟩
        · have hmax := ((int32_ofInt_eq_iff count).mp hres).2
          refine ⟨by omega, fun hne hlen => absurd ⟨hne, ?_⟩ herror⟩
          rw [← hcount, hlen, Nat.zero_min]
        · refine absurd ⟨hne, ?_⟩ herror
          rw [← hcount, hnil, List.length_nil, Nat.min_zero]
    · rintro ⟨hmax, hnil⟩
      refine ⟨hfilled, _, hread, ?_⟩
      rw [hcount]
      by_cases herror : last.error ≠ 0 ∧ count = 0
      · rw [if_pos herror]
        refine Or.inr ⟨herror.1, rfl, ?_⟩
        by_cases hlen : len.toNat = 0
        · exact hnil herror.1 hlen
        · apply List.eq_nil_of_length_eq_zero
          omega
      · rw [if_neg herror]
        apply Or.inl
        rw [int32_ofInt_eq_iff]
        omega
  · constructor
    · rintro ⟨res, hnews, hres⟩
      obtain rfl : _ = res := (DspNews.done.inj (List.singleton_inj.mp (hwrite.symm.trans hnews))).2
      by_cases herror : last.error ≠ 0 ∧ last.bytes.length = len.toNat
      · omega
      · rw [if_neg herror] at hres
        rcases hres with hres | ⟨hne, -, hleft⟩
        · exact (int32_ofInt_eq_iff _).mp hres
        · exact absurd ⟨hne, hleft⟩ herror
    · intro hfits
      refine ⟨_, hwrite, ?_⟩
      by_cases herror : last.error ≠ 0 ∧ last.bytes.length = len.toNat
      · rw [if_pos herror]
        exact Or.inr ⟨herror.1, rfl, herror.2⟩
      · rw [if_neg herror]
        exact Or.inl ((int32_ofInt_eq_iff _).mpr hfits)

/-- A read of 2^31 bytes that all come is answered as an error. -/
theorem file_channel_count_wraps : ¬ ∀ (op : Slot) (len : UInt32) (buf : IoBuf len.toNat)
    (early : List Delivery) (last : Delivery), ReadReassembles op len buf.block early last := by
  intro h
  let data := List.replicate (2 ^ 31) (0 : UInt8)
  have hlen : data.length = 2 ^ 31 := List.length_replicate
  let buf : IoBuf (UInt32.toNat 0x80000000) := ⟨⟨data, false⟩, hlen.ge⟩
  let last : Delivery := { data := some [data] }
  have hcame : (allData [] last).length = 2 ^ 31 := by
    rw [allData, List.nil_append, List.flatMap_singleton]
    show [data].flatten.length = _
    rw [List.flatten_singleton, hlen]
  obtain ⟨res, hnews, hres⟩ := (h 0 0x80000000 buf [] last).once
  obtain ⟨-, hread⟩ := dspFileRead_spec 0 0x80000000 [] last buf
  have hcount : min (UInt32.toNat 0x80000000) (allData [] last).length = 2 ^ 31 := by
    rw [hcame]
    rfl
  rw [hcount, if_neg (fun herror => herror.1 rfl)] at hread
  rw [hcount] at hres
  obtain rfl : _ = res := (DspNews.done.inj (List.singleton_inj.mp (hread.symm.trans hnews))).2
  rcases hres with hres | ⟨hne, -⟩
  · have hmax := Int32.toInt_lt (Int32.ofInt ((2 ^ 31 : ℕ) : ℤ))
    omega
  · exact hne rfl

end Requests

end SlipstreamIO.Engine
