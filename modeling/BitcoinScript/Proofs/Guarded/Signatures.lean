import BitcoinScript.Machine.Signatures
import BitcoinScript.Proofs.Guarded.Operation
import BitcoinScript.Proofs.Guarded.Script
import BitcoinScript.Proofs.Machine.Calls
import BitcoinScript.Proofs.Signature.StrictEncoding

/-!
# Guarded checks of signatures

A check of several signatures keeps two cursors on the stack, one for the next key and one for the
next signature, and counts down how many of both are left. The items are required once, before the
walk; from then on every read is expected to succeed. The walk has three guards more than any other
code: the cursors have to stay among the operands they are meant for, and no key may be read a
second time.

`matchLoop_eq` says that the cursors only ever walk over the lists of keys and signatures that are
left. It rests on one inequality: there are never fewer keys than signatures left when the walk goes
on.
-/

namespace BitcoinScript

namespace Guarded

open Checked

open Machine (Context Outcome State)

/-! ## The form of signatures and keys -/

/-- Checks the strict encoding, and under the rule of low values also the second integer. -/
def checkStrict (sig : Bytes) (flags : Flags) : Checked EncodingError Unit := do
  let (offset, length) ← (Encoding.strictRange sig).mapFailure .signature
  if flags.lowS then
    let s ← slice sig offset (← add offset length)
    if Bytes.beValue s > Encoding.halfOrder then .failed .highS else .done ()
  else .done ()

/-- Checks the form of a signature, the strict encoding before the hash type. -/
def checkSignature (sig : Bytes) (flags : Flags) : Checked EncodingError Unit :=
  match sig.getLast? with
  | none => .done ()
  | some hashByte => do
      if flags.derSignatures || flags.lowS || flags.strictEncoding then checkStrict sig flags
      answer (if flags.strictEncoding then Encoding.checkHashType (.ofByte hashByte) flags
        else .ok ())

/-- Whether a key is 33 bytes with a leading 2 or 3, or 65 bytes with a leading 4. -/
def isPublicKey (key : Bytes) : Option Bool :=
  if key.length = 33 then do
    let tag ← index key 0
    return tag == 2 || tag == 3
  else if key.length = 65 then do
    let tag ← index key 0
    return tag == 4
  else some false

/-- Checks the form of a public key. -/
def checkPublicKey (key : Bytes) (flags : Flags) : Checked EncodingError Unit := do
  if flags.strictEncoding then
    if ← isPublicKey key then .done () else .failed .publicKey
  else .done ()

/-- The place of the second integer lies inside of the signature. -/
theorem exists_slice_of_strictRange {sig : Bytes} {offset length : Nat}
    (h : Encoding.strictRange sig = .done (offset, length)) :
    ∃ stop s, add offset length = some stop ∧ slice sig offset stop = some s ∧
      Encoding.strictS sig = .ok s := by
  have hread := Encoding.readS_eq sig
  unfold Encoding.readS at hread
  rw [h, done_bind] at hread
  obtain ⟨stop, hstop, hread⟩ := exists_of_lift_bind_eq_answer hread
  cases hslice : slice sig offset stop with
  | none =>
      rw [hslice] at hread
      cases hS : Encoding.strictS sig <;> rw [hS] at hread <;> cases hread
  | some s =>
      rw [hslice] at hread
      cases hS : Encoding.strictS sig with
      | error cause => rw [hS] at hread; cases hread
      | ok t =>
          rw [hS] at hread
          cases hread
          exact ⟨stop, s, hstop, hslice, rfl⟩

theorem checkStrict_eq (sig : Bytes) (flags : Flags) :
    checkStrict sig flags = .answer (Encoding.checkStrict sig flags) := by
  obtain ⟨r, hrange, hS⟩ := Encoding.exists_strictRange_eq sig
  unfold checkStrict Encoding.checkStrict
  cases r with
  | error cause =>
      rw [hrange, hS]
      rfl
  | ok place =>
      obtain ⟨stop, s, hstop, hslice, hs⟩ := exists_slice_of_strictRange hrange
      rw [hrange, hs]
      simp only [answer_ok, mapFailure, done_bind]
      cases flags.lowS with
      | false => rfl
      | true =>
          simp only [if_true, lift_bind hstop, lift_bind hslice, Bool.true_and, decide_eq_true_eq]
          split <;> rfl

theorem checkSignature_eq (sig : Bytes) (flags : Flags) :
    checkSignature sig flags = .answer (Encoding.checkSignature sig flags) := by
  unfold checkSignature Encoding.checkSignature
  cases sig.getLast? with
  | none => rfl
  | some hashByte =>
      simp only [checkStrict_eq]
      split
      · cases Encoding.checkStrict sig flags with
        | error e => rfl
        | ok done => rfl
      · rfl

theorem isPublicKey_eq (key : Bytes) : isPublicKey key = some (Encoding.isPublicKey key) := by
  unfold isPublicKey Encoding.isPublicKey
  cases key with
  | nil => rfl
  | cons tag rest =>
      have htag : index (tag :: rest) 0 = some tag := rfl
      rw [List.length_cons, htag]
      by_cases hshort : rest.length = 32
      · simp [hshort]
      · by_cases hlong : rest.length = 64
        · simp [hlong]
        · simp [hshort, hlong]

theorem checkPublicKey_eq (key : Bytes) (flags : Flags) :
    checkPublicKey key flags = .answer (Encoding.checkPublicKey key flags) := by
  unfold checkPublicKey Encoding.checkPublicKey
  rw [isPublicKey_eq]
  cases flags.strictEncoding with
  | false => rfl
  | true => cases Encoding.isPublicKey key <;> rfl

/-! ## One signature -/

/-- The signed part of the script, signatures included. -/
def scriptCode (ctx : Context) (s : State) : Option Bytes := sliceFrom ctx.script s.codeStart

/-- Whether a signature signs some script code for a key, and the state after asking. -/
def checkPair (ctx : Context) (code : Bytes) (sig key : Item) (s : State) :
    Option (Except Reason Bool × State) :=
  match checkSignature sig.bytes ctx.flags with
  | .stopped => none
  | .failed e => some (.error (.encoding e), s)
  | .done () =>
      match checkPublicKey key.bytes ctx.flags with
      | .stopped => none
      | .failed e => some (.error (.encoding e), s)
      | .done () =>
          if sig.size = 0 then some (.ok false, s)
          else
            let answer := ctx.checker.checkSignature sig.bytes key.bytes code ctx.flags
            let asked := s.record (.signature sig.bytes key.bytes code ctx.flags answer)
            match answer with
            | .error e => some (.error (.digest e), asked)
            | .ok valid => some (.ok valid, asked)

/-- Checks the signature below the key on top of the stack. -/
def checkSig (ctx : Context) (required : Bool) (s : State) : Option Outcome :=
  orFail s (top 1 s.stack) fun sig => do
    let key ← sure (top 0 s.stack)
    let code ← findAndDelete (← scriptCode ctx s) (← pushEncoding sig.bytes)
    match ← checkPair ctx code sig key s with
    | (.error e, asked) => return .fail e asked
    | (.ok valid, asked) =>
        let rest ← sure (discard 2 s.stack)
        return Machine.conclude Opcode.checkSigVerify required valid
          (sig.provenance.union key.provenance) rest asked

theorem scriptCode_eq {ctx : Context} {s : State} (h : s.codeStart ≤ ctx.script.length) :
    scriptCode ctx s = some (Machine.scriptCode ctx s) := sliceFrom_eq h

theorem checkPair_eq (ctx : Context) (code : Bytes) (sig key : Item) (s : State) :
    checkPair ctx code sig key s = some (Machine.checkPair ctx code sig key s) := by
  unfold checkPair Machine.checkPair
  rw [checkSignature_eq]
  cases Encoding.checkSignature sig.bytes ctx.flags with
  | error e => rfl
  | ok done =>
      rw [checkPublicKey_eq]
      cases Encoding.checkPublicKey key.bytes ctx.flags with
      | error e => rfl
      | ok done =>
          simp only [answer_ok]
          split
          · rfl
          · split <;> rename_i hanswer <;> rw [hanswer]

/-- The push of an item is a vector. -/
theorem pushEncoding_item {x : Item} (hx : x.size < signedSpan) :
    pushEncoding x.bytes = some (BitcoinScript.pushEncoding x.bytes) := by
  apply pushEncoding_eq
  rw [Item.length_bytes]
  unfold signedSpan at hx
  unfold wordSpan
  omega

/-- The signed part is no longer than the script. -/
theorem length_scriptCode_le (ctx : Context) (s : State) :
    (Machine.scriptCode ctx s).length ≤ ctx.script.length := by
  rw [Machine.scriptCode, List.length_drop]
  omega

theorem checkSig_eq {ctx : Context} {s : State} (hscript : ctx.script.length < signedSpan)
    (hstart : s.codeStart ≤ ctx.script.length) (hs : ∀ x ∈ s.stack, x.size < signedSpan)
    (required : Bool) : checkSig ctx required s = some (Machine.checkSig ctx required s) := by
  unfold checkSig Machine.checkSig
  match hstack : s.stack with
  | [] => rfl
  | [x] => rfl
  | key :: sig :: rest =>
      have hcode := length_scriptCode_le ctx s
      have hword : (Machine.scriptCode ctx s).length + 4 < wordSpan := by
        unfold signedSpan at hscript
        unfold wordSpan
        omega
      simp only [top_one_cons, top_zero_cons, discard_two_cons, sure_done, orFail]
      rw [bind_of_some rfl, bind_of_some (scriptCode_eq hstart),
        bind_of_some (pushEncoding_item (hs sig (by simp [hstack]))),
        bind_of_some (findAndDelete_eq hword _), bind_of_some (checkPair_eq ..)]
      show _ = some (match Machine.checkPair ctx (Edit.findAndDelete (Machine.scriptCode ctx s)
        (BitcoinScript.pushEncoding sig.bytes)) sig key s with
        | (.error e, asked) => _
        | (.ok valid, asked) => _)
      cases Machine.checkPair ctx (Edit.findAndDelete (Machine.scriptCode ctx s)
          (BitcoinScript.pushEncoding sig.bytes)) sig key s with
      | mk result asked => cases result <;> rfl

/-! ## Several signatures -/

/-- Guards that a cursor stands on one of `count` operands, the first of them at `first`. -/
def among (first count cursor : Nat) : Option Unit :=
  if first ≤ cursor ∧ cursor < first + count then some () else none

/-- Guards that a cursor stands on a key for the first time. -/
def unread (read : List Nat) (cursor : Nat) : Option Unit :=
  if cursor ∈ read then none else some ()

/-- Moves the cursor on the signatures, once its signature has a key. -/
def advance (valid : Bool) (cursor : Nat) : Option Nat :=
  if valid then add cursor 1 else some cursor

/-- Tries the first signature left on the first key left, and goes on. Without a key left, the count
of the keys would go below zero. -/
def matchLoop (ctx : Context) (code : Bytes) (stack : Stack) (keyCount sigCount : Nat) :
    (keysLeft sigsLeft ikey isig : Nat) → (read : List Nat) → State →
      Option (Except Reason Bool × State)
  | _, 0, _, _, _, s => some (.ok true, s)
  | 0, _ + 1, _, _, _, _ => none
  | keysLeft + 1, sigsLeft + 1, ikey, isig, read, s => do
      among 2 keyCount ikey
      unread read ikey
      among (keyCount + 3) sigCount isig
      let sig ← sure (top (← sub isig 1) stack)
      let key ← sure (top (← sub ikey 1) stack)
      let next ← add ikey 1
      match ← checkPair ctx code sig key s with
      | (.error e, asked) => return (.error e, asked)
      | (.ok valid, asked) =>
          let isig ← advance valid isig
          let sigsLeft := if valid then sigsLeft else sigsLeft + 1
          if sigsLeft > keysLeft then return (.ok false, asked)
          else
            matchLoop ctx code stack keyCount sigCount keysLeft sigsLeft next isig (ikey :: read)
              asked

/-- Deletes the pushes of some signatures, the first of them at a cursor, from a script. -/
def deleteSignatures (stack : Stack) (isig count : Nat) (script : Bytes) : Option Bytes :=
  (List.range' 0 count).foldlM (fun code k => do
    let sig ← sure (top (← add (← sub isig 1) k) stack)
    findAndDelete code (← pushEncoding sig.bytes)) script

/-- The number at a cursor, if it lies between zero and a bound. -/
def countAt (flags : Flags) (i bound : Nat) (e : MultiSigError) (s : Stack) :
    Checked Reason Nat := do
  let x ← top (← sub i 1) s
  let n ← number flags x
  match (word? n).filter (· ≤ bound) with
  | none => .failed (.multiSig e)
  | some n => .done n

/-- Checks several signatures whose operands are all there. -/
def checkOperands (ctx : Context) (required : Bool) (keyCount sigCount ikey isig i : Nat)
    (s : State) : Option Outcome := do
  let code ← deleteSignatures s.stack isig sigCount (← scriptCode ctx s)
  match ← matchLoop ctx code s.stack keyCount sigCount keyCount sigCount ikey isig [] s with
  | (.error e, asked) => return .fail e asked
  | (.ok valid, asked) =>
      let dummy ← sure (top (← sub i 1) s.stack)
      if ctx.flags.nullDummy && dummy.size != 0 then
        return .fail (.multiSig (.dummy dummy.size)) asked
      else
        let rest ← sure (discard i s.stack)
        return Machine.conclude Opcode.checkMultiSigVerify required valid
          (Stack.provenance (s.stack.take i)) rest asked

/-- Checks several signatures. -/
def checkMultiSig (ctx : Context) (required : Bool) (s : State) : Option Outcome :=
  orFail s (countAt ctx.flags 1 ctx.limits.multiSigKeys .keyCount s.stack) fun keyCount =>
    let s := { s with opCount := saturatingAdd s.opCount keyCount }
    if s.opCount > ctx.limits.operations then some (.fail .opCount s)
    else do
      let ikey ← add 1 1
      let i ← add 1 (← add 1 keyCount)
      orFail s (countAt ctx.flags i keyCount .signatureCount s.stack) fun sigCount => do
        let isig ← add i 1
        let i ← add i (← add 1 sigCount)
        orFail s (require i s.stack) fun _ =>
          checkOperands ctx required keyCount sigCount ikey isig i s

/-! ## The walk of the cursors -/

/-- The cursors have as many operands before them as are left, at least as many keys as signatures,
and the keys read are behind them. -/
structure Aligned (keyCount sigCount keysLeft sigsLeft ikey isig : Nat) (read : List Nat) :
    Prop where
  two_le : 2 ≤ ikey
  keys : ikey + keysLeft = keyCount + 2
  le_isig : keyCount + 3 ≤ isig
  sigs : isig + sigsLeft = keyCount + sigCount + 3
  left_le : sigsLeft ≤ keysLeft
  behind : ∀ cursor ∈ read, cursor < ikey

section Walk

variable {keyCount sigCount keysLeft sigsLeft ikey isig : Nat} {read : List Nat}

/-- The cursors stay aligned as long as the walk goes on. -/
theorem Aligned.step (h : Aligned keyCount sigCount (keysLeft + 1) (sigsLeft + 1) ikey isig read)
    {valid : Bool} (hleft : ¬ (if valid then sigsLeft else sigsLeft + 1) > keysLeft) :
    Aligned keyCount sigCount keysLeft (if valid then sigsLeft else sigsLeft + 1) (ikey + 1)
      (if valid then isig + 1 else isig) (ikey :: read) := by
  obtain ⟨htwo, hkeys, hisig, hsigs, -, hbehind⟩ := h
  refine ⟨by omega, by omega, ?_, ?_, by omega, ?_⟩
  · split <;> omega
  · split <;> omega
  · intro cursor hcursor
    rcases List.mem_cons.mp hcursor with rfl | hcursor
    · omega
    · have hlt := hbehind cursor hcursor
      omega

/-- The item at a cursor is the first one of those from there on. -/
theorem exists_item_at {s : Stack} {i : Nat} (hpos : 0 < i) (hi : i ≤ s.length)
    (hs : s.length < wordSpan) (n : Nat) :
    ∃ x, top (i - 1) s = .done x ∧ (s.drop (i - 1)).take (n + 1) = x :: (s.drop i).take n := by
  obtain ⟨j, rfl⟩ : ∃ j, i = j + 1 := ⟨i - 1, by omega⟩
  refine ⟨s[j], ?_, ?_⟩
  · rw [Nat.add_sub_cancel, top_eq (by omega), List.getElem?_eq_getElem (by omega)]
    rfl
  · rw [Nat.add_sub_cancel, ← List.getElem_cons_drop (by omega), List.take_succ_cons]

theorem matchLoop_eq {stack : Stack} (hstack : stack.length < signedSpan)
    (hall : keyCount + sigCount + 3 ≤ stack.length) (ctx : Context) (code : Bytes) {s : State}
    (h : Aligned keyCount sigCount keysLeft sigsLeft ikey isig read) :
    matchLoop ctx code stack keyCount sigCount keysLeft sigsLeft ikey isig read s =
      some (Machine.matchKeys ctx code ((stack.drop (isig - 1)).take sigsLeft)
        ((stack.drop (ikey - 1)).take keysLeft) s) := by
  have hword : stack.length + 1 < wordSpan := by
    unfold signedSpan at hstack
    unfold wordSpan
    omega
  induction keysLeft generalizing sigsLeft ikey isig read s with
  | zero =>
      have hnone : sigsLeft = 0 := Nat.le_zero.mp h.left_le
      subst hnone
      rfl
  | succ keysLeft ih =>
      cases sigsLeft with
      | zero => simp [matchLoop, Machine.matchKeys]
      | succ sigsLeft =>
          have htwo := h.two_le
          have hkeys := h.keys
          have hisig := h.le_isig
          have hsigs := h.sigs
          have hunread : ikey ∉ read := fun hmem => Nat.lt_irrefl _ (h.behind ikey hmem)
          obtain ⟨key, hkey, hkeyList⟩ :=
            exists_item_at (s := stack) (i := ikey) (by omega) (by omega) (by omega) keysLeft
          obtain ⟨sig, hsig, hsigList⟩ :=
            exists_item_at (s := stack) (i := isig) (by omega) (by omega) (by omega) sigsLeft
          unfold matchLoop
          have hkeyGuard : among 2 keyCount ikey = some () := if_pos ⟨htwo, by omega⟩
          have hreadGuard : unread read ikey = some () := if_neg hunread
          have hsigGuard : among (keyCount + 3) sigCount isig = some () := if_pos ⟨hisig, by omega⟩
          have hnext : isig + 1 < wordSpan := by omega
          rw [bind_of_some hkeyGuard, bind_of_some hreadGuard, bind_of_some hsigGuard,
            bind_of_some (sub_eq (by omega)), hsig, bind_of_some (sure_done sig),
            bind_of_some (sub_eq (by omega)), hkey, bind_of_some (sure_done key),
            bind_of_some (add_eq (by omega)), bind_of_some (checkPair_eq ..), hkeyList, hsigList,
            Machine.matchKeys]
          cases Machine.checkPair ctx code sig key s with
          | mk result asked =>
              cases result with
              | error e => rfl
              | ok valid =>
                  have hcursor : advance valid isig =
                      some (if valid then isig + 1 else isig) := by
                    unfold advance
                    split
                    · exact add_eq hnext
                    · rfl
                  have hrest : (if valid then (stack.drop isig).take sigsLeft
                      else sig :: (stack.drop isig).take sigsLeft) =
                      (stack.drop ((if valid then isig + 1 else isig) - 1)).take
                        (if valid then sigsLeft else sigsLeft + 1) := by
                    split
                    · rw [Nat.add_sub_cancel]
                    · exact hsigList.symm
                  have hlength : ((stack.drop ((if valid then isig + 1 else isig) - 1)).take
                      (if valid then sigsLeft else sigsLeft + 1)).length =
                      if valid then sigsLeft else sigsLeft + 1 := by
                    rw [List.length_take, List.length_drop]
                    split <;> omega
                  have hkeysLength : ((stack.drop ikey).take keysLeft).length = keysLeft := by
                    rw [List.length_take, List.length_drop]
                    omega
                  dsimp only
                  rw [bind_of_some hcursor, hrest, hlength, hkeysLength]
                  by_cases hleft : (if valid then sigsLeft else sigsLeft + 1) > keysLeft
                  · rw [if_pos hleft, if_pos hleft]
                    rfl
                  · rw [if_neg hleft, if_neg hleft, ih (h.step hleft), Nat.add_sub_cancel]

end Walk

/-! ## The whole check -/

theorem foldlM_deleteSignatures {stack : Stack} (hs : ∀ x ∈ stack, x.size < signedSpan)
    (hstack : stack.length < signedSpan) {isig k count : Nat} (hpos : 0 < isig)
    (hall : isig + k + count ≤ stack.length + 1) {script : Bytes}
    (hscript : script.length < signedSpan) :
    (List.range' k count).foldlM (fun code k => do
        let sig ← sure (top (← add (← sub isig 1) k) stack)
        findAndDelete code (← pushEncoding sig.bytes)) script =
      some (Machine.withoutSignatures script ((stack.drop (isig - 1 + k)).take count)) := by
  induction count generalizing k script with
  | zero => rfl
  | succ count ih =>
      have hdouble : wordSpan = 2 * signedSpan := rfl
      have hfour : 4 < signedSpan := by decide
      obtain ⟨sig, hsig, hsigList⟩ := exists_item_at (s := stack) (i := isig + k) (by omega)
        (by omega) (by omega) count
      have hcursor : isig - 1 + k = isig + k - 1 := by omega
      have hmem : sig ∈ stack := by
        apply List.mem_of_mem_drop (i := isig + k - 1)
        apply List.mem_of_mem_take (i := count + 1)
        rw [hsigList]
        exact List.mem_cons_self
      have hdeleted := length_findAndDelete_le script (BitcoinScript.pushEncoding sig.bytes)
      rw [List.range'_succ, List.foldlM_cons, bind_of_some (sub_eq hpos),
        bind_of_some (add_eq (by omega)), hcursor, hsig, bind_of_some (sure_done sig),
        bind_of_some (pushEncoding_item (hs sig hmem)),
        bind_of_some (findAndDelete_eq (by omega) _), ih (by omega) (by omega), hsigList,
        show isig - 1 + (k + 1) = isig + k by omega]
      rfl

theorem deleteSignatures_eq {stack : Stack} (hs : ∀ x ∈ stack, x.size < signedSpan)
    (hstack : stack.length < signedSpan) {isig count : Nat} (hpos : 0 < isig)
    (hall : isig + count ≤ stack.length + 1) {script : Bytes}
    (hscript : script.length < signedSpan) :
    deleteSignatures stack isig count script =
      some (Machine.withoutSignatures script ((stack.drop (isig - 1)).take count)) :=
  foldlM_deleteSignatures hs hstack hpos hall hscript

theorem countAt_eq (flags : Flags) {i bound : Nat} (hpos : 0 < i) (hi : i < wordSpan)
    (hbound : bound < wordSpan) (e : MultiSigError) (s : Stack) :
    countAt flags i bound e s = .answer (Machine.countAt flags (i - 1) bound e s) := by
  unfold countAt Machine.countAt
  rw [lift_bind (sub_eq hpos), top_eq (by omega)]
  cases s[i - 1]? with
  | none => rfl
  | some x =>
      simp only [answer_ok, done_bind, number_eq]
      cases Machine.number flags x with
      | error e => rfl
      | ok n =>
          rw [answer_ok, done_bind, filter_word? (fun k hk => by simp at hk; omega)]
          simp only [decide_eq_true_eq]
          by_cases hn : 0 ≤ n ∧ n ≤ bound
          · rw [if_pos ⟨hn.1, by omega⟩, if_pos hn]
            rfl
          · rw [if_neg (by omega), if_neg hn]
            rfl

theorem multiSigKeys_le (flags : Flags) : flags.limits.multiSigKeys ≤ 0x7fffffff := by
  unfold Flags.limits
  split
  · exact Nat.le_refl _
  · show 20 ≤ 0x7fffffff
    decide

theorem checkOperands_eq {ctx : Context} {s : State} (hscript : ctx.script.length < signedSpan)
    (hstart : s.codeStart ≤ ctx.script.length) (hstack : s.stack.length < signedSpan)
    (hs : ∀ x ∈ s.stack, x.size < signedSpan) {keyCount sigCount : Nat}
    (hfewer : sigCount ≤ keyCount) {dummy : Item}
    (hdummy : s.stack[keyCount + sigCount + 2]? = some dummy) (required : Bool) :
    checkOperands ctx required keyCount sigCount 2 (keyCount + 3) (keyCount + sigCount + 3) s =
      some (match Machine.matchKeys ctx
          (Machine.withoutSignatures (Machine.scriptCode ctx s)
            ((s.stack.drop (keyCount + 2)).take sigCount))
          ((s.stack.drop (keyCount + 2)).take sigCount) ((s.stack.drop 1).take keyCount) s with
        | (.error e, asked) => .fail e asked
        | (.ok valid, asked) =>
            if ctx.flags.nullDummy && dummy.size != 0 then
              .fail (.multiSig (.dummy dummy.size)) asked
            else
              Machine.conclude Opcode.checkMultiSigVerify required valid
                (Stack.provenance (s.stack.take (keyCount + sigCount + 3)))
                (s.stack.drop (keyCount + sigCount + 3)) asked) := by
  have hdouble : wordSpan = 2 * signedSpan := rfl
  have hcode := length_scriptCode_le ctx s
  obtain ⟨hall, -⟩ := List.getElem?_eq_some_iff.mp hdummy
  have haligned : Aligned keyCount sigCount keyCount sigCount 2 (keyCount + 3) [] :=
    ⟨by omega, by omega, by omega, by omega, hfewer, fun _ h => nomatch h⟩
  have htop : top (keyCount + sigCount + 2) s.stack = .done dummy := by
    rw [top_eq (by omega), hdummy]
    rfl
  have hrest : discard (keyCount + sigCount + 3) s.stack =
      .done (s.stack.drop (keyCount + sigCount + 3)) := discard_of_le (by omega)
  unfold checkOperands
  rw [bind_of_some (scriptCode_eq hstart),
    bind_of_some (deleteSignatures_eq hs hstack (by omega) (by omega) (by omega)),
    bind_of_some (matchLoop_eq hstack hall ctx _ haligned),
    show keyCount + 3 - 1 = keyCount + 2 by omega]
  generalize Machine.matchKeys ctx _ _ _ s = answer
  obtain ⟨result, asked⟩ := answer
  cases result with
  | error e => rfl
  | ok valid =>
      dsimp only
      rw [bind_of_some (sub_eq (by omega)),
        show keyCount + sigCount + 3 - 1 = keyCount + sigCount + 2 by omega, htop,
        bind_of_some (sure_done dummy), hrest, bind_of_some (sure_done _)]
      split <;> rfl

/-- The sum of the operations and the keys stops at the largest word. So the check is that of the
machine from a lower count, unless this sum fits in a word. -/
theorem exists_checkMultiSig_eq {ctx : Context} {s : State}
    (hscript : ctx.script.length < signedSpan) (hstart : s.codeStart ≤ ctx.script.length)
    (hstack : s.stack.length < signedSpan) (hs : ∀ x ∈ s.stack, x.size < signedSpan)
    (required : Bool) :
    ∃ count ≤ s.opCount, (s.opCount + ctx.limits.multiSigKeys < wordSpan → count = s.opCount) ∧
      checkMultiSig ctx required s =
        some (Machine.checkMultiSig ctx required { s with opCount := count }) := by
  have hkeys : ctx.limits.multiSigKeys ≤ 0x7fffffff := multiSigKeys_le ctx.flags
  have hdouble : wordSpan = 2 * signedSpan := rfl
  have hsmall : 0x7fffffff * 4 < signedSpan := by decide
  cases hkeyCount : Machine.countAt ctx.flags 0 ctx.limits.multiSigKeys .keyCount s.stack with
  | error e =>
      refine ⟨s.opCount, Nat.le_refl _, fun _ => rfl, ?_⟩
      unfold checkMultiSig Machine.checkMultiSig
      rw [countAt_eq ctx.flags (by decide) (by decide) (by omega), hkeyCount]
      rfl
  | ok keyCount =>
      obtain ⟨-, -, -, hfew⟩ := Machine.countAt_eq_ok hkeyCount
      obtain ⟨count, hle, hfits, hsum⟩ :=
        exists_saturatingAdd_eq (a := s.opCount) (show keyCount < wordSpan by omega)
      refine ⟨count, hle, fun hroom => hfits (by omega), ?_⟩
      unfold checkMultiSig Machine.checkMultiSig
      rw [countAt_eq ctx.flags (by decide) (by decide) (by omega), hkeyCount]
      simp only [answer_ok, orFail]
      rw [hsum]
      split
      · rfl
      rw [bind_of_some (add_eq (by decide)), bind_of_some (add_eq (by omega)),
        bind_of_some (add_eq (by omega)), countAt_eq ctx.flags (by omega) (by omega) (by omega),
        show 1 + (1 + keyCount) - 1 = keyCount + 1 by omega]
      cases hsigCount : Machine.countAt ctx.flags (keyCount + 1) keyCount .signatureCount
          s.stack with
      | error e => rfl
      | ok sigCount =>
          obtain ⟨-, -, -, hfewer⟩ := Machine.countAt_eq_ok hsigCount
          simp only [answer_ok]
          rw [bind_of_some (add_eq (by omega)), bind_of_some (add_eq (by omega)),
            bind_of_some (add_eq (by omega)),
            show 1 + (1 + keyCount) + (1 + sigCount) = keyCount + sigCount + 3 by omega]
          cases hdummy : s.stack[keyCount + sigCount + 2]? with
          | none =>
              rw [List.getElem?_eq_none_iff] at hdummy
              rw [require_failed (by omega)]
          | some dummy =>
              obtain ⟨hall, -⟩ := List.getElem?_eq_some_iff.mp hdummy
              rw [require_eq (by omega), show 1 + (1 + keyCount) + 1 = keyCount + 3 by omega]
              exact checkOperands_eq (s := { s with opCount := count + keyCount }) hscript
                hstart hstack hs hfewer hdummy required

end Guarded

end BitcoinScript
