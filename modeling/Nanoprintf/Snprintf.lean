import Nanoprintf.Printf

/-!
# Formatting into a buffer

`npf_vsnprintf` runs the engine with a callback that writes through a cursor as
long as capacity is left, and terminates the buffer afterwards. The destination
is modelled as the memory behind `buffer`: a function from offsets to what is
stored there, in which every write is visible, also one past `bufsz`.
-/

set_option autoImplicit false

namespace Nanoprintf

open Foundations

/-- The memory from `buffer` on. -/
abbrev Memory := ℕ → Char

/-- `npf_bufputc_ctx_t`, together with the memory it writes to: `dst` is null or
an offset from `buffer`. -/
structure NpfBufputcCtx where
  memory : Memory
  dst : Option ℕ
  len : ℕ

/-- `npf_bufputc` -/
def npfBufputc (bpc : NpfBufputcCtx) (c : Char) : NpfBufputcCtx :=
  match bpc.dst with
  | none => bpc
  | some dst =>
    if bpc.len ≠ 0 then
      { memory := Function.update bpc.memory dst c, dst := some (dst + 1), len := bpc.len - 1 }
    else bpc

/-- `npf_vsnprintf`: the returned length, the memory behind `buffer`, and the
stores of `%n`. `buffer` is whether the pointer is not null. -/
def npfVsnprintf (cfg : Config) (memory : Memory) (buffer : Bool) (bufsz : ℕ) (format : Cursor)
    (vlist : List Arg) (fs : NpfFormatSpec) : Run (ℤ × Memory × List Store) := do
  let ctx : NpfBufputcCtx := ⟨memory, if buffer then some 0 else none, bufsz⟩
  let (n, ctx, stores) ← npfVpprintf cfg npfBufputc ctx format vlist fs
  if buffer ∧ bufsz ≠ 0 then
    let n' := (n % 2 ^ cfg.intBits).toNat
    let terminator :=
      if cfg.safeEmptyString then (if bufsz ≤ n' then 0 else n') else min n' (bufsz - 1)
    pure (n, Function.update ctx.memory terminator NUL, stores)
  else pure (n, ctx.memory, stores)

end Nanoprintf
