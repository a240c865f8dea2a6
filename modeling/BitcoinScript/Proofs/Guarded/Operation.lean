import BitcoinScript.Machine.Step
import BitcoinScript.Proofs.Guarded.Number
import BitcoinScript.Proofs.Guarded.Shift
import BitcoinScript.Proofs.Guarded.Stack
import BitcoinScript.Proofs.Machine.PeakMemory

/-!
# Guarded operations

The operations that read items by their depth, read and write numbers, or cut and join items. They
look at their operands first and take them off the stack when nothing can fail any more. From there
on every access is expected to succeed: `expect` turns a failure of it into a guard that strikes.

Each operation has the answer of the one on stacks, under the bounds that it needs: lengths and
sizes have to be words, and the memory of the stacks has to be one where it is summed up.
-/

namespace BitcoinScript

namespace Guarded

open Checked

open Machine (Context Outcome State)

/-! ## Numbers on the stack -/

/-- The number held by an item, under the rules in force. -/
def number (flags : Flags) (x : Item) : Checked Reason Int :=
  (decode flags.minimalData flags.limits.numberSize x.bytes).mapFailure .number

/-- An item that holds a number. -/
def ofInt (n : Int) (p : Provenance) : Option Item := do
  let b ← encode n
  return ⟨.ofBytes b, .int, p⟩

/-- The item that holds a computed value. -/
def ofValue (v : Value) (p : Provenance) : Option Item :=
  match v with
  | .int n => ofInt n p
  | .bool b => some (.ofBool b p)

theorem mapFailure_decode (requireMinimal : Bool) (maxSize : Nat) (x : Item) :
    (decode requireMinimal maxSize x.bytes).mapFailure Reason.number =
      .answer (match x.toInt requireMinimal maxSize with
        | .ok n => .ok n
        | .error e => .error (.number e)) := by
  rw [decode_eq, Item.toInt_eq]
  cases Number.decode requireMinimal maxSize x.bytes <;> rfl

@[simp] theorem number_eq (flags : Flags) (x : Item) :
    number flags x = .answer (Machine.number flags x) :=
  mapFailure_decode _ _ x

@[simp] theorem ofInt_eq (n : Int) (p : Provenance) : ofInt n p = some (.ofInt n p) := by
  rw [ofInt, encode_eq]
  rfl

@[simp] theorem ofValue_eq (v : Value) (p : Provenance) : ofValue v p = some (v.item p) := by
  cases v with
  | int n => exact ofInt_eq n p
  | bool b => rfl

/-! ## Arithmetic -/

/-- Replaces the top number by a result. -/
def unary (flags : Flags) (op : UnaryOp) (s : Stack) : Checked Reason Stack := do
  let a ← number flags (← top 0 s)
  let x ← expect (top 0 s)
  let result ← ofInt (op.eval a) x.provenance
  return result :: (← expect (discard 1 s))

/-- The top two numbers, the deeper one first, and their provenance. -/
def pair (flags : Flags) (s : Stack) : Checked Reason (Int × Int × Provenance) := do
  let a ← number flags (← top 1 s)
  let b ← number flags (← expect (top 0 s))
  let x ← expect (top 1 s)
  let y ← expect (top 0 s)
  return (a, b, x.provenance.union y.provenance)

/-- Replaces the top two numbers by a result. -/
def binary (flags : Flags) (op : BinaryOp) (s : Stack) : Checked Reason Stack := do
  let (a, b, p) ← pair flags s
  let v ← answer (op.eval a b)
  let result ← ofValue v p
  return result :: (← expect (discard 2 s))

/-- Takes the top two numbers off, which must be equal. -/
def numEqualVerify (flags : Flags) (s : Stack) : Checked Reason Stack := do
  let (a, b, _) ← pair flags s
  if a ≠ b then .failed (.verify Opcode.numEqualVerify)
  else expect (discard 2 s)

/-- Replaces a number and two bounds by whether the number lies between them. -/
def within (flags : Flags) (s : Stack) : Checked Reason Stack := do
  let n ← number flags (← top 2 s)
  let a ← number flags (← expect (top 1 s))
  let b ← number flags (← expect (top 0 s))
  let x ← expect (top 2 s)
  let low ← expect (top 1 s)
  let high ← expect (top 0 s)
  let p := (x.provenance.union low.provenance).union high.provenance
  return .ofBool (a ≤ n && n < b) p :: (← expect (discard 3 s))

theorem unary_eq (flags : Flags) (op : UnaryOp) (s : Stack) :
    unary flags op s = .answer (Machine.unary flags op s) := by
  unfold unary Machine.unary
  match s with
  | [] => rfl
  | x :: rest =>
      simp only [top_zero_cons, done_bind, number_eq]
      cases Machine.number flags x with
      | error e => rfl
      | ok a => simp

theorem pair_eq (flags : Flags) (x y : Item) (rest : Stack) :
    pair flags (y :: x :: rest) =
      .answer ((Machine.pair flags x y).map fun r =>
        (r.1, r.2, x.provenance.union y.provenance)) := by
  unfold pair Machine.pair
  simp only [top_one_cons, top_zero_cons, expect_done, done_bind, number_eq]
  cases Machine.number flags x with
  | error e => rfl
  | ok a =>
      cases Machine.number flags y with
      | error e => rfl
      | ok b => rfl

theorem binary_eq (flags : Flags) (op : BinaryOp) (s : Stack) :
    binary flags op s = .answer (Machine.binary flags op s) := by
  unfold binary Machine.binary
  match s with
  | [] => rfl
  | [x] => rfl
  | y :: x :: rest =>
      rw [pair_eq]
      dsimp only
      cases Machine.pair flags x y with
      | error e => rfl
      | ok r =>
          simp only [Except.map, answer_ok, done_bind]
          cases op.eval r.1 r.2 with
          | error e => rfl
          | ok v => simp

theorem numEqualVerify_eq (flags : Flags) (s : Stack) :
    numEqualVerify flags s = .answer (Machine.numEqualVerify flags s) := by
  unfold numEqualVerify Machine.numEqualVerify
  match s with
  | [] => rfl
  | [x] => rfl
  | y :: x :: rest =>
      rw [pair_eq]
      dsimp only
      cases Machine.pair flags x y with
      | error e => rfl
      | ok r =>
          simp only [Except.map, answer_ok, done_bind, discard_two_cons, expect_done, ne_eq,
            ite_not]
          split <;> rfl

theorem within_eq (flags : Flags) (s : Stack) :
    within flags s = .answer (Machine.within flags s) := by
  unfold within Machine.within Machine.pair
  match s with
  | [] => rfl
  | [x] => rfl
  | [x, y] => rfl
  | high :: low :: x :: rest =>
      simp only [top_two_cons, top_one_cons, top_zero_cons, expect_done, done_bind, number_eq]
      cases Machine.number flags x with
      | error e => rfl
      | ok n =>
          cases Machine.number flags low with
          | error e => rfl
          | ok a =>
              cases Machine.number flags high with
              | error e => rfl
              | ok b => simp

/-! ## Moves -/

/-- Copies the top item if it is true. -/
def dupIfTrue : Stack → Checked Reason Stack
  | [] => .failed .invalidStackOperation
  | x :: rest => if x.isTrue then expect (dup 1 (x :: rest)) else .done (x :: rest)

/-- Pushes the number of items. -/
def depth (s : Stack) : Checked Reason Stack := do
  let n ← signed s.length
  let x ← ofInt n .derived
  return x :: s

/-- Fetches the item with as many items above it as the index says, the index itself aside. -/
def fetch (flags : Flags) (takeOut : Bool) (s : Stack) : Checked Reason Stack := do
  let n ← number flags (← top 0 s)
  let depth ← sub s.length 1
  match (word? n).filter (· < depth) with
  | none => .failed .invalidStackOperation
  | some i =>
      let (index, rest) ← expect (pop s)
      if takeOut then
        let (x, rest) ← expect (remove i rest)
        return x.merge index.provenance :: rest
      else
        let x ← expect (top i rest)
        return x.merge index.provenance :: rest

theorem dupIfTrue_eq (s : Stack) : dupIfTrue s = .answer (Machine.dupIfTrue s) := by
  match s with
  | [] => rfl
  | x :: rest =>
      unfold dupIfTrue Machine.dupIfTrue
      dsimp only
      split
      · rw [dup_one_cons]
        rfl
      · rfl

theorem depth_eq {s : Stack} (hs : s.length < signedSpan) :
    depth s = .done (Machine.depth s) := by
  rw [depth, signed_eq hs]
  simp [Machine.depth]

theorem fetch_eq {s : Stack} (hs : s.length < wordSpan) (flags : Flags) (takeOut : Bool) :
    fetch flags takeOut s = .answer (Machine.fetch flags takeOut s) := by
  unfold fetch Machine.fetch
  match s with
  | [] => rfl
  | index :: rest =>
      rw [List.length_cons] at hs
      simp only [top_zero_cons, done_bind, number_eq]
      cases Machine.number flags index with
      | error e => rfl
      | ok n =>
          have hdepth : sub (index :: rest).length 1 = some rest.length := by
            rw [sub_eq (by simp)]
            simp
          rw [answer_ok, done_bind, lift_bind hdepth]
          dsimp only
          rw [filter_word? (fun k hk => by simp at hk; omega)]
          simp only [decide_eq_true_eq]
          by_cases hn : 0 ≤ n ∧ n.toNat < rest.length
          · obtain ⟨x, hx⟩ : ∃ x, rest[n.toNat]? = some x := ⟨_, List.getElem?_eq_getElem hn.2⟩
            rw [if_pos hn, if_neg (by omega), hx]
            cases takeOut with
            | false =>
                have htop : top n.toNat rest = .done x := by
                  rw [top_eq (by omega), hx]
                  rfl
                simp [pop, htop]
            | true => simp [pop, remove_eq (show n.toNat + 1 < wordSpan by omega) hx]
          · rw [if_neg hn]
            by_cases hneg : n < 0
            · rw [if_pos hneg]
              rfl
            · rw [if_neg hneg, List.getElem?_eq_none (by omega)]
              rfl

/-! ## Memory -/

/-- The memory that items are charged for, summed up one after the other. -/
def usage (items : List Item) : Option Nat :=
  items.foldlM (fun acc x => do add acc (← add Limits.itemOverhead x.size)) 0

/-- The memory that both stacks are charged for. -/
def memoryUsage (s altStack : Stack) : Option Nat := do
  add (← usage s.reverse) (← usage altStack.reverse)

/-- Fails if the stacks would exceed their memory once the top `consumed` items are replaced by one
of the given length. -/
def reserve (bound : StackBound) (altStack : Stack) (consumed length : Nat) (s : Stack) :
    Checked Reason Unit :=
  match bound with
  | .depth _ => .done ()
  | .memory bytes => do
      let released ← usage (s.take consumed)
      let rest ← sub (← memoryUsage s altStack) released
      if saturatingAdd (saturatingAdd rest Limits.itemOverhead) length > bytes then
        .failed .stackMemory
      else .done ()

theorem memory_reverse (s : Stack) : Stack.memory s.reverse = Stack.memory s := by
  induction s with
  | nil => rfl
  | cons x rest ih =>
      rw [List.reverse_cons, Stack.memory_append, Stack.memory_cons, Stack.memory_cons, ih,
        Stack.memory_nil]
      omega

theorem foldlM_usage {items : List Item} {n : Nat} (h : n + Stack.memory items < wordSpan) :
    items.foldlM (fun acc x => do add acc (← add Limits.itemOverhead x.size)) n =
      some (n + Stack.memory items) := by
  induction items generalizing n with
  | nil => rfl
  | cons x rest ih =>
      rw [Stack.memory_cons, Stack.cost] at h
      rw [List.foldlM_cons, bind_of_some (add_eq (by omega)), bind_of_some (add_eq (by omega)),
        ih (by omega), Stack.memory_cons, Stack.cost, Nat.add_assoc]

theorem usage_eq {items : List Item} (h : Stack.memory items < wordSpan) :
    usage items = some (Stack.memory items) := by
  rw [usage, foldlM_usage (by omega), Nat.zero_add]

theorem memoryUsage_eq {s altStack : Stack}
    (h : Stack.memory s + Stack.memory altStack < wordSpan) :
    memoryUsage s altStack = some (Stack.memory s + Stack.memory altStack) := by
  rw [memoryUsage, bind_of_some (usage_eq (by rw [memory_reverse]; omega)),
    bind_of_some (usage_eq (by rw [memory_reverse]; omega)), memory_reverse, memory_reverse,
    add_eq h]

theorem reserve_eq {flags : Flags} {s altStack : Stack}
    (hmemory : flags.genesis = true → Stack.memory s + Stack.memory altStack < wordSpan)
    (consumed length : Nat) :
    reserve flags.limits.stack altStack consumed length s =
      .answer (Machine.reserve flags.limits.stack altStack consumed length s) := by
  unfold Flags.limits
  by_cases hg : flags.genesis = true
  · have hsum := hmemory hg
    have htake := Stack.memory_sublist (List.take_sublist consumed s)
    rw [if_pos hg]
    simp only [Limits.lifted, reserve, Machine.reserve]
    rw [lift_bind (usage_eq (by omega)), lift_bind (memoryUsage_eq hsum),
      lift_bind (sub_eq (by omega))]
    have hsaturated : ∀ n : Nat, saturatingAdd (saturatingAdd n Limits.itemOverhead) length >
        100000000 ↔ n + Limits.itemOverhead + length > 100000000 := by
      intro n
      unfold saturatingAdd wordSpan
      omega
    simp only [hsaturated]
    split <;> rfl
  · rw [if_neg hg]
    rfl

/-! ## Joining, cutting and resizing -/

/-- Joins the top two items. -/
def cat (limits : Limits) (s : Stack) : Checked Reason Stack := do
  let x ← top 1 s
  let y ← expect (top 0 s)
  let length ← add x.size y.size
  if length > limits.elementSize then .failed .pushSize
  else
    let (y, s) ← expect (pop s)
    expect (modifyTop (fun x => ({ x with data := x.data ++ y.data } : Item).merge y.provenance) s)

/-- Cuts an item in two at a position. -/
def split (flags : Flags) (s : Stack) : Checked Reason Stack := do
  let n ← number flags (← top 0 s)
  let x ← top 1 s
  match (word? n).filter (· ≤ x.size) with
  | none => .failed .invalidSplitRange
  | some i =>
      let position ← expect (top 0 s)
      let p := x.provenance.union position.provenance
      let s ← expect (discard 1 s)
      let (x, s) ← expect (pop s)
      let (left, right) ← splitAt x.bytes i
      return .ofBytes right p :: .ofBytes left p :: s

/-- Writes a number with a given size. -/
def numToBin (flags : Flags) (altStack : Stack) (s : Stack) : Checked Reason Stack := do
  let n ← number flags (← top 0 s)
  match (word? n).filter (· ≤ flags.limits.elementSize) with
  | none => .failed .pushSize
  | some size =>
      reserve flags.limits.stack altStack 2 size s
      let x ← top 1 s
      let y ← expect (top 0 s)
      let raw ← minimize x.bytes
      if raw.length > size then .failed .impossibleEncoding
      else
        let raw ← if raw.length < size then widen size raw else some raw
        let s ← expect (discard 2 s)
        return ⟨.ofBytes raw, .int, x.provenance.union y.provenance⟩ :: s

/-- Writes a number in its minimal form. -/
def binToNum (limits : Limits) (s : Stack) : Checked Reason Stack := do
  let x ← top 0 s
  let raw ← minimize x.bytes
  if raw.length > limits.numberSize then .failed .invalidNumberRange
  else
    let s ← expect (discard 1 s)
    return ⟨.ofBytes raw, .int, x.provenance⟩ :: s

/-- Pushes the size of the top item. -/
def size (s : Stack) : Checked Reason Stack := do
  let x ← top 0 s
  let n ← signed x.size
  return (← ofInt n x.provenance) :: s

theorem cat_eq {s : Stack} (hs : ∀ x ∈ s, x.size < signedSpan) (limits : Limits) :
    cat limits s = .answer (Machine.cat limits s) := by
  unfold cat Machine.cat
  match s with
  | [] => rfl
  | [x] => rfl
  | y :: x :: rest =>
      have hx := hs x (by simp)
      have hy := hs y (by simp)
      have hsum : x.size + y.size < wordSpan := by
        unfold signedSpan at hx hy
        unfold wordSpan
        omega
      simp only [top_one_cons, top_zero_cons, expect_done, done_bind]
      rw [lift_bind (add_eq hsum)]
      split
      · rfl
      · simp [pop]

theorem ofBytes_take (x : Packed) (i : Nat) : Packed.ofBytes (x.bytes.take i) = x.extract 0 i := by
  apply Packed.bytes_injective
  simp

theorem ofBytes_drop (x : Packed) (i : Nat) :
    Packed.ofBytes (x.bytes.drop i) = x.extract i x.size := by
  apply Packed.bytes_injective
  rw [Packed.bytes_ofBytes, Packed.bytes_extract, List.extract_eq_take_drop,
    List.take_of_length_le (by simp)]

theorem split_eq {s : Stack} (hs : ∀ x ∈ s, x.size < signedSpan) (flags : Flags) :
    split flags s = .answer (Machine.split flags s) := by
  unfold split Machine.split
  match s with
  | [] => rfl
  | position :: rest =>
      simp only [top_zero_cons, done_bind, number_eq]
      cases Machine.number flags position with
      | error e => rfl
      | ok n =>
          match rest with
          | [] => rfl
          | x :: rest =>
              have hx := hs x (by simp)
              have hword : x.size < wordSpan := Nat.lt_trans hx (by decide)
              simp only [answer_ok, done_bind, top_one_cons, expect_done, discard_one_cons, pop]
              rw [filter_word? (fun k hk => by simp at hk; omega)]
              simp only [decide_eq_true_eq]
              by_cases hn : 0 ≤ n ∧ n ≤ x.size
              · have hcut : splitAt x.bytes n.toNat =
                    some (x.bytes.take n.toNat, x.bytes.drop n.toNat) :=
                  splitAt_eq (by rw [Item.length_bytes]; omega)
                rw [if_pos ⟨hn.1, by omega⟩, if_pos hn]
                dsimp only
                rw [lift_bind hcut]
                simp only [Item.ofBytes, Item.bytes, ofBytes_take, ofBytes_drop]
                rfl
              · rw [if_neg (by omega), if_neg hn]
                rfl

theorem minimize_data {x : Item} (hx : x.size < signedSpan) :
    minimize x.bytes = some x.data.minimize.bytes := by
  rw [minimize_eq, Packed.bytes_minimize]
  · rfl
  · rw [Item.length_bytes]
    exact Nat.lt_trans hx (by decide)

theorem numToBin_eq {flags : Flags} {s altStack : Stack} (hs : ∀ x ∈ s, x.size < signedSpan)
    (hmemory : flags.genesis = true → Stack.memory s + Stack.memory altStack < wordSpan) :
    numToBin flags altStack s = .answer (Machine.numToBin flags altStack s) := by
  have hlimit : flags.limits.elementSize < wordSpan := by
    unfold Flags.limits
    split
    · decide
    · show 520 < wordSpan
      decide
  unfold numToBin Machine.numToBin
  match s with
  | [] => rfl
  | y :: rest =>
      simp only [top_zero_cons, done_bind, number_eq]
      cases Machine.number flags y with
      | error e => rfl
      | ok n =>
          rw [answer_ok, done_bind, filter_word? (fun k hk => by simp at hk; omega)]
          simp only [decide_eq_true_eq]
          by_cases hn : 0 ≤ n ∧ n.toNat ≤ flags.limits.elementSize
          · rw [if_pos hn, if_neg (by omega)]
            dsimp only
            rw [reserve_eq hmemory]
            cases Machine.reserve flags.limits.stack altStack 2 n.toNat (y :: rest) with
            | error e => rfl
            | ok done =>
                match rest with
                | [] => rfl
                | x :: rest =>
                    have hraw := minimize_data (hs x (by simp))
                    simp only [answer_ok, done_bind, top_one_cons, expect_done, discard_two_cons]
                    rw [lift_bind hraw, Packed.length_bytes]
                    by_cases hmore : x.data.minimize.size > n.toNat
                    · rw [if_pos hmore, if_pos hmore]
                      rfl
                    rw [if_neg hmore, if_neg hmore]
                    by_cases hsame : x.data.minimize.size = n.toNat
                    · rw [if_neg (by omega), if_pos hsame, lift_some, done_bind,
                        Packed.ofBytes_bytes]
                      rfl
                    · have hless : x.data.minimize.size < n.toNat := by omega
                      rw [if_pos hless, if_neg hsame, lift_bind (widen_eq hless),
                        Packed.ofBytes_bytes]
                      rfl
          · rw [if_neg hn, if_pos (by omega)]
            rfl

theorem binToNum_eq {s : Stack} (hs : ∀ x ∈ s, x.size < signedSpan) (limits : Limits) :
    binToNum limits s = .answer (Machine.binToNum limits s) := by
  unfold binToNum Machine.binToNum
  match s with
  | [] => rfl
  | x :: rest =>
      have hraw := minimize_data (hs x (by simp))
      simp only [done_bind, top_zero_cons, expect_done, discard_one_cons]
      rw [lift_bind hraw, Packed.length_bytes, Packed.ofBytes_bytes]
      split <;> rfl

theorem size_eq {s : Stack} (hs : ∀ x ∈ s, x.size < signedSpan) :
    size s = .answer (Machine.size s) := by
  unfold size Machine.size
  match s with
  | [] => rfl
  | x :: rest =>
      simp [signed_eq (hs x (by simp))]

/-! ## Bits, equality and hashes -/

/-- Flips all bits of the top item. -/
def invert (s : Stack) : Checked Reason Stack :=
  modifyTop (fun x => Machine.withBytes x (x.bytes.map (~~~ ·))) s

/-- Combines the bits of the top two items, which must have one length. -/
def bitwise (op : BitOp) (s : Stack) : Checked Reason Stack := do
  let x ← top 1 s
  let y ← expect (top 0 s)
  if x.size ≠ y.size then .failed .invalidOperandSize
  else
    let (y, s) ← expect (pop s)
    expect (modifyTop (fun x =>
      (Machine.withBytes x (List.zipWith op.eval x.bytes y.bytes)).merge y.provenance) s)

/-- Replaces the top two items by whether they have the same bytes. -/
def equal (s : Stack) : Checked Reason Stack := do
  let x ← top 1 s
  let y ← expect (top 0 s)
  let s ← expect (discard 2 s)
  return .ofBool (decide (x.data = y.data)) (x.provenance.union y.provenance) :: s

/-- Takes the top two items off, which must have the same bytes. -/
def equalVerify (s : Stack) : Checked Reason Stack := do
  let x ← top 1 s
  let y ← expect (top 0 s)
  if x.data ≠ y.data then .failed (.verify Opcode.equalVerify)
  else expect (discard 2 s)

/-- Replaces the top item by a hash of it. -/
def hash (op : HashOp) (s : Stack) : Checked Reason Stack :=
  modifyTop (fun x => Machine.withBytes x (op.eval x.data)) s

theorem invert_eq (s : Stack) : invert s = .answer (Machine.invert s) := by
  cases s with
  | nil => rfl
  | cons x rest => simp [invert, Machine.invert]

theorem bitwise_eq (op : BitOp) (s : Stack) : bitwise op s = .answer (Machine.bitwise op s) := by
  unfold bitwise Machine.bitwise
  match s with
  | [] => rfl
  | [x] => rfl
  | y :: x :: rest =>
      simp only [top_one_cons, top_zero_cons, expect_done, done_bind, pop, modifyTop_cons, ne_eq,
        ite_not]
      split <;> rfl

theorem equal_eq (s : Stack) : equal s = .answer (Machine.equal s) := by
  unfold equal Machine.equal
  match s with
  | [] => rfl
  | [x] => rfl
  | y :: x :: rest => simp

theorem equalVerify_eq (s : Stack) : equalVerify s = .answer (Machine.equalVerify s) := by
  unfold equalVerify Machine.equalVerify
  match s with
  | [] => rfl
  | [x] => rfl
  | y :: x :: rest =>
      simp only [top_one_cons, top_zero_cons, expect_done, done_bind, discard_two_cons, ne_eq,
        ite_not]
      split <;> rfl

theorem hash_eq (op : HashOp) (s : Stack) : hash op s = .answer (Machine.hash op s) := by
  cases s with
  | nil => rfl
  | cons x rest => simp [hash, Machine.hash]

/-! ## Failures in a state -/

/-- Goes on with a new stack, or fails in the state as it is. -/
def outcome (s : State) : Checked Reason Stack → Option Outcome
  | .stopped => none
  | .failed e => some (.fail e s)
  | .done stack => some (.next { s with stack := stack })

/-- Goes on with what was computed, or fails in the state as it is. -/
def orFail {α : Type} (s : State) (x : Checked Reason α) (next : α → Option Outcome) :
    Option Outcome :=
  match x with
  | .stopped => none
  | .failed e => some (.fail e s)
  | .done a => next a

@[simp] theorem outcome_answer (s : State) (r : Except Reason Stack) :
    outcome s (.answer r) = some (s.withStack r) := by
  cases r <;> rfl

/-- Shifts the bits of a string in a direction. -/
def shiftBytes (d : Direction) (n : Nat) (b : Bytes) : Option Bytes :=
  match d with
  | .left => shiftLeft n b
  | .right => shiftRight n b

/-- Shifts an item by a count. -/
def shift (flags : Flags) (d : Direction) (s : State) : Option Outcome :=
  orFail s (do number flags (← top 0 s.stack)) fun n =>
    if n < 0 then some (.fail .invalidNumberRange s)
    else
      let bits := (word? n).getD (wordSpan - 1)
      orFail s (expect (pop s.stack)) fun (count, rest) =>
        let s := { s with stack := rest }
        orFail s (top 0 rest) fun x => do
          let shifted ← shiftBytes d bits x.bytes
          outcome s (expect (modifyTop
            (fun x => (Machine.withBytes x shifted).merge count.provenance) rest))

/-- Checks the lock time on top of the stack, which stays there. -/
def lockTime (ctx : Context) (op : Opcode) (s : State) : Option Outcome :=
  if !ctx.flags.checkLockTime || ctx.flags.genesis then some (Machine.upgradableNop ctx.flags op s)
  else
    orFail s (do
      let x ← top 0 s.stack
      (decode ctx.flags.minimalData Number.lockTimeSize x.bytes).mapFailure .number) fun time =>
        if time < 0 then some (.fail .negativeLockTime s)
        else
          let answer := ctx.checker.checkLockTime time
          let asked := s.record (.lockTime time answer)
          some (if answer then .next asked else .fail .unsatisfiedLockTime asked)

theorem shiftBytes_eq {b : Bytes} (hb : b.length < wordSpan) (d : Direction) (n : Nat) :
    shiftBytes d n b = some (Bytes.shift d n b) := by
  cases d with
  | left => exact shiftLeft_eq n b
  | right => exact shiftRight_eq hb n

/-- A count that is no word shifts as far as the largest word. -/
theorem getD_word? {n : Int} (h : ¬ n < 0) :
    (word? n).getD (wordSpan - 1) = min n.toNat Limits.wordMax := by
  have hmax : Limits.wordMax = wordSpan - 1 := rfl
  unfold word?
  split
  · rw [Option.getD_some]
    omega
  · rw [Option.getD_none]
    omega

theorem shift_eq {s : State} (hs : ∀ x ∈ s.stack, x.size < signedSpan) (flags : Flags)
    (d : Direction) : shift flags d s = some (Machine.shift flags d s) := by
  unfold shift Machine.shift
  match hstack : s.stack with
  | [] => rfl
  | count :: rest =>
      simp only [top_zero_cons, done_bind, number_eq]
      cases Machine.number flags count with
      | error e => rfl
      | ok n =>
          simp only [answer_ok, orFail, expect_done, pop]
          split
          · rfl
          · rename_i hneg
            match rest with
            | [] => rfl
            | x :: rest =>
                have hx := hs x (by simp [hstack])
                have hbytes : x.bytes.length < wordSpan := by
                  rw [Item.length_bytes]
                  exact Nat.lt_trans hx (by decide)
                simp only [top_zero_cons, modifyTop_cons, expect_done]
                rw [bind_of_some (shiftBytes_eq hbytes d _), getD_word? hneg]
                rfl

theorem lockTime_eq (ctx : Context) (op : Opcode) (s : State) :
    lockTime ctx op s = some (Machine.lockTime ctx op s) := by
  unfold lockTime Machine.lockTime
  split
  · rfl
  · cases s.stack with
    | nil => rfl
    | cons x rest =>
        simp only [top_zero_cons, done_bind, mapFailure_decode]
        cases x.toInt ctx.flags.minimalData Number.lockTimeSize with
        | error e => rfl
        | ok time =>
            simp only [answer_ok, orFail]
            split <;> rfl

end Guarded

end BitcoinScript
