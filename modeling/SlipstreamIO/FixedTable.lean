import SlipstreamIO.Enter

/-! The fixed file table: slots that hold real descriptors, and the range a direct op may be given a
slot from. -/
namespace SlipstreamIO.Engine

def ioringFileIndexAlloc : UInt32 := 0xFFFFFFFF

namespace Ring

def fixedN (r : Ring) : ℕ := (r.fixed.getD []).length

/-- The scan of the alloc range, from `probe` on and around its end. -/
def allocScan (fixed : List Int32) (off stop : ℕ) : ℕ → ℕ → Option ℕ
  | 0, _ => none
  | tries + 1, probe =>
    if fixed.getD probe 0 < 0 then some probe
    else allocScan fixed off stop tries (if stop ≤ probe + 1 then off else probe + 1)

def slipFixedInstall (r : Ring) (fileIndex : UInt32) (realfd : Int32) : Ring × Int32 :=
  match r.fixed with
  | none => (r, -enxio)
  | some fixed =>
    if fileIndex = ioringFileIndexAlloc then
      let stop := r.allocOff + r.allocLen
      let probe := if r.allocHint < r.allocOff ∨ stop ≤ r.allocHint then r.allocOff else r.allocHint
      match allocScan fixed r.allocOff stop r.allocLen probe with
      | some slot =>
        ({ r with fixed := some (fixed.set slot realfd), allocHint := slot + 1 }, Int32.ofNat slot)
      | none => (r, -enfile)
    else
      let slot := (fileIndex - 1).toNat
      match fixed[slot]? with
      | none => (r, -ebadf)
      | some held =>
        if 0 ≤ held then (r, -ebusy)
        else ({ r with fixed := some (fixed.set slot realfd) }, Int32.ofNat slot)

def slipFixedClear (r : Ring) (slot : ℕ) : Ring × Int32 :=
  match r.fixed with
  | none => (r, -ebadf)
  | some fixed =>
    match fixed[slot]? with
    | none => (r, -ebadf)
    | some held =>
      if held < 0 then (r, -ebadf)
      else
        ({ r with
          fixed := some (fixed.set slot (-1))
          allocHint := if r.allocOff ≤ slot ∧ slot < r.allocHint then slot else r.allocHint }, 0)

end Ring

end SlipstreamIO.Engine
