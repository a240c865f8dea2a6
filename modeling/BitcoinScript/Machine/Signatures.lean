import BitcoinScript.Machine.State
import BitcoinScript.Program.Edit

/-!
# Checking signatures

A signature signs the script from the last executed code separator on, with all pushes of the
signature deleted from it: a signature cannot sign itself. Before the checker is asked, signature
and key must have the form that the flags require; for an empty signature it is not asked at all.

Several signatures are checked against a list of keys in order. Every key is tried at most once, and
the check is given up as soon as fewer keys than signatures are left.
-/

namespace BitcoinScript

namespace Machine

/-- The signed part of the script, signatures included. -/
def scriptCode (ctx : Context) (s : State) : Bytes := ctx.script.drop s.codeStart

/-- A script without the pushes of some signatures. -/
def withoutSignatures (script : Bytes) (sigs : List Item) : Bytes :=
  sigs.foldl (fun code sig => Edit.findAndDelete code (pushEncoding sig.bytes)) script

/-- Whether a signature signs some script code for a key, and the state after asking. -/
def checkPair (ctx : Context) (code : Bytes) (sig key : Item) (s : State) :
    Except Reason Bool × State :=
  match Encoding.checkSignature sig.bytes ctx.flags with
  | .error e => (.error (.encoding e), s)
  | .ok () =>
      match Encoding.checkPublicKey key.bytes ctx.flags with
      | .error e => (.error (.encoding e), s)
      | .ok () =>
          if sig.size = 0 then (.ok false, s)
          else
            let answer := ctx.checker.checkSignature sig.bytes key.bytes code ctx.flags
            let asked := s.record (.signature sig.bytes key.bytes code ctx.flags answer)
            match answer with
            | .error e => (.error (.digest e), asked)
            | .ok valid => (.ok valid, asked)

/-- Goes on with `rest` and the answer on top of it; a required answer is not pushed, but must be
true. -/
def conclude (op : Opcode) (required valid : Bool) (p : Provenance) (rest : Stack) (s : State) :
    Outcome :=
  if required then
    if valid then .next { s with stack := rest } else .fail (.verify op) { s with stack := rest }
  else .next { s with stack := .ofBool valid p :: rest }

/-- Checks the signature below the key on top of the stack. -/
def checkSig (ctx : Context) (required : Bool) (s : State) : Outcome :=
  match s.stack with
  | key :: sig :: rest =>
      match checkPair ctx (withoutSignatures (scriptCode ctx s) [sig]) sig key s with
      | (.error e, asked) => .fail e asked
      | (.ok valid, asked) =>
          conclude Opcode.checkSigVerify required valid (sig.provenance.union key.provenance) rest
            asked
  | _ => .fail .invalidStackOperation s

/-- Whether all signatures can be assigned to keys in order, trying the keys one after the other. -/
def matchKeys (ctx : Context) (code : Bytes) :
    (sigs keys : List Item) → State → Except Reason Bool × State
  | [], _, s => (.ok true, s)
  | _ :: _, [], s => (.ok false, s)
  | sig :: sigs, key :: keys, s =>
      match checkPair ctx code sig key s with
      | (.error e, asked) => (.error e, asked)
      | (.ok valid, asked) =>
          let left := if valid then sigs else sig :: sigs
          if left.length > keys.length then (.ok false, asked)
          else matchKeys ctx code left keys asked

/-- The number with `i` items above it, if it lies between zero and a bound. -/
def countAt (flags : Flags) (i bound : Nat) (e : MultiSigError) (s : Stack) : Except Reason Nat :=
  match s[i]? with
  | none => .error .invalidStackOperation
  | some x =>
      match number flags x with
      | .error e => .error e
      | .ok n => if 0 ≤ n ∧ n ≤ bound then .ok n.toNat else .error (.multiSig e)

/-- Checks several signatures. From the top down, the stack holds the number of keys, the keys, the
number of signatures, the signatures, and one item more than needed. Every key counts as an
operation; the count has no largest number. -/
def checkMultiSig (ctx : Context) (required : Bool) (s : State) : Outcome :=
  match countAt ctx.flags 0 ctx.limits.multiSigKeys .keyCount s.stack with
  | .error e => .fail e s
  | .ok keyCount =>
      let s := { s with opCount := s.opCount + keyCount }
      if s.opCount > ctx.limits.operations then .fail .opCount s
      else
        match countAt ctx.flags (keyCount + 1) keyCount .signatureCount s.stack with
        | .error e => .fail e s
        | .ok sigCount =>
            match s.stack[keyCount + sigCount + 2]? with
            | none => .fail .invalidStackOperation s
            | some dummy =>
                let keys := (s.stack.drop 1).take keyCount
                let sigs := (s.stack.drop (keyCount + 2)).take sigCount
                let code := withoutSignatures (scriptCode ctx s) sigs
                match matchKeys ctx code sigs keys s with
                | (.error e, asked) => .fail e asked
                | (.ok valid, asked) =>
                    let operands := keyCount + sigCount + 3
                    if ctx.flags.nullDummy && dummy.size != 0 then
                      .fail (.multiSig (.dummy dummy.size)) asked
                    else
                      conclude Opcode.checkMultiSigVerify required valid
                        (Stack.provenance (s.stack.take operands)) (s.stack.drop operands) asked

end Machine

end BitcoinScript
