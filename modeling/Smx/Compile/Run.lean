import Smx.Compile.Format
import Smx.Parse.Direct

/-! `Decompile` and `RunCompiled`. One unit of fuel pays for one record; code as long as the
fuel is read to its end. -/
namespace Smx
open EmitM (emit capture)

/-- The arguments of a call, as `Decompile` prints them; `dec` prints compiled ones. -/
def decompileArgs (dec : Bytes → Bytes) (rn : Byte) : ℕ → Bytes → Bytes × Bytes
  | 0,inp => ([],inp)
  | k+1,inp =>
    match readArg rn inp with
    -- a short read leaves nothing to read
    | none => ([],[])
    | some (at',cur,rest) =>
      let text := match at' with
        | .cmp => dec cur
        | .qstr => T_SQ::cur
        | .str => cur
      let r := decompileArgs dec rn k rest
      (text ++ (if k ≠ 0 then [T_COMMA] else []) ++ r.1,r.2)

/-- `Decompile`. A negative length never comes out of the compiler. -/
def decompile : ℕ → Bytes → Bytes
  | 0,_ => []
  | n+1,inp =>
    match readBase inp with
    | none => []
    | some (b,rest) =>
      if b.ln < 0 ∨ rest.length < b.ln.toNat then []
      else
        let dt := rest.take b.ln.toNat
        let rest := rest.drop b.ln.toNat
        if b.bc = BC_FUNC then
          T_PCT::mask b.rn dt ++
            match readCount rest with
            | none => []
            | some (cnt,rest) =>
              let r := decompileArgs (decompile n) b.rn cnt.toNat rest
              (if 0 < cnt then T_LP::r.1 ++ [T_RP] else T_PCT::r.1) ++ decompile n r.2
        else if b.bc = BC_OUT then dt ++ decompile n rest
        else decompile n rest

/-- How `RunCompiled` starts on a quote map: the mode, and the rest of the map when the mode
changes from argument to argument. -/
def runStart : Option Bytes → Byte × Option Bytes
  | none => (ch '0',none)
  | some map =>
    if map.head? = some (ch 'A') then (ch '1',none)
    else (if map.head? = some (ch '1') then ch '1' else ch '0',some map.tail)

def runNext (qmode : Byte) : Option Bytes → Byte × Option Bytes
  | none => (qmode,none)
  | some [] => (ch '0',some [])
  | some (m::rest) => if m = ch 'A' then (qmode,some (m::rest)) else (m,some rest)

namespace Host
variable {σ ο : Type} (H : Host σ ο)

/-- One argument of a call, as `RunCompiled` passes it on; `run` runs compiled ones. -/
def runArg (run : Bytes → SmxM σ Unit) (dec : Bytes → Bytes) (qmode : Byte) (at' : ArgType)
    (cur : Bytes) : SmxM σ Arg :=
  if at' ≠ .qstr ∧ qmode = ch '0' then do
    let r ← capture (if at' = .cmp then run cur else H.parse cur)
    pure ⟨r.1,.str⟩
  else if at' = .cmp then
    if qmode ≠ ch '2' then pure ⟨dec cur,.str⟩ else pure ⟨cur,.cmp⟩
  else pure ⟨cur,at'⟩

/-- The two argument loops of `RunCompiled`, with a fixed or a changing mode. -/
def runArgs (run : Bytes → SmxM σ Unit) (dec : Bytes → Bytes) (rn : Byte) :
    ℕ → Byte × Option Bytes → Bytes → SmxM σ (List Arg × Bytes)
  | 0,_,inp => pure ([],inp)
  | k+1,q,inp =>
    match readArg rn inp with
    | none => pure ([],[])
    | some (at',cur,rest) => do
      let arg ← H.runArg run dec q.1 at' cur
      let r ← runArgs run dec rn k (runNext q.1 q.2) rest
      pure (arg::r.1,r.2)

/-- The loop over the arguments of an undefined macro. -/
def skipArgs (rn : Byte) : ℕ → Bytes → Bytes
  | 0,inp => inp
  | k+1,inp =>
    match readArg rn inp with
    | none => []
    | some (_,_,rest) => skipArgs rn k rest

/-- `RunCompiled`. -/
def runCompiled : ℕ → Bytes → SmxM σ Unit
  | 0,_ => pure ()
  | n+1,inp =>
    match readBase inp with
    | none => pure ()
    | some (b,rest) =>
      if b.ln ≤ 0 ∨ rest.length < b.ln.toNat then pure ()
      else
        let dt := rest.take b.ln.toNat
        let rest := rest.drop b.ln.toNat
        if b.bc = BC_FUNC then do
          let name := mask b.rn dt
          let s ← EmitM.get
          match H.find s name with
          | some obj =>
            match readCount rest with
            | none => pure ()
            | some (cnt,rest) => do
              let a ← H.runArgs (runCompiled n) (decompile n) b.rn cnt.toNat
                (runStart (H.getQmap obj)) rest
              H.eval obj (if cnt ≠ 0 then some a.1 else none)
              runCompiled n a.2
          | none =>
            if H.strict s then do
              H.throwEx (notFound name)
              -- without `%try` the arguments are read as the next record
              runCompiled n rest
            else do
              let c := (readCount rest).getD (0,[])
              emit (T_PCT::name)
              emit (if 0 < c.1 then str "(...)" else [T_PCT])
              runCompiled n (skipArgs b.rn c.1.toNat c.2)
        else if b.bc = BC_OUT then do
          emit dt
          runCompiled n rest
        else runCompiled n rest

end Host
end Smx
