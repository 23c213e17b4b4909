/-
The commissioning data the Matter stack asks for.

`Init` fills in discriminator, passcode and salt; the SPAKE2+ verifier is computed when it is
first asked for, by two calls into the crypto library that may fail, and is served from
`mVerifier` from then on.  The crypto library is a parameter: what `Generate` and `Serialize`
compute when they succeed is a function of their arguments, and whether they succeed is
chosen with each call.

A getter is given its caller's variables and returns them as they are afterwards.
-/
import Shirokumakun.HwPairing
import Shirokumakun.Lib.Transition

namespace Shirokumakun

open Transition

/-- `CHIP_ERROR`; the codes of other components are not looked into. -/
inductive ChipError
  | noError
  | incorrectState
  | bufferTooSmall
  | other (code : UInt32)
deriving DecidableEq

/-- The caller's memory from `data()` on, and `size()`. -/
structure MutableByteSpan where
  memory : List UInt8
  size : Nat
  size_le : size ≤ memory.length

/-- `memcpy` of all of `bytes`, and `reduce_size` to their number. -/
def MutableByteSpan.fill (span : MutableByteSpan) (bytes : List UInt8) : MutableByteSpan where
  memory := bytes ++ span.memory.drop bytes.length
  size := bytes.length
  size_le := by
    rw [List.length_append]
    exact Nat.le_add_right _ _

/-- `Spake2pVerifier`, and `kSpake2p_VerifierSerialized_Length`. -/
structure Spake2p where
  Verifier : Type
  kVerifierLen : Nat
  generate : (iterations : UInt32) → (salt : List UInt8) → (passcode : UInt32) → Verifier
  serialize : Verifier → Vector UInt8 kVerifierLen

/-- How `Generate` and `Serialize` end in one call, and what a failing `Serialize` leaves in
the buffer it was given. -/
structure CryptoOutcome (spake : Spake2p) where
  generateErr : ChipError
  serializeErr : ChipError
  leftover : Vector UInt8 spake.kVerifierLen

def kIterations : UInt32 := 1000

def kSaltLen : Nat := 16

/-- `HwCommissionableDataProvider`. -/
structure HwCommissionableDataProvider (spake : Spake2p) extends HwCommissionableData where
  mVerifier : Vector UInt8 spake.kVerifierLen
  mVerifierReady : Bool

/-- The variables a getter is passed by reference, with their contents. -/
inductive Out
  | discriminator (discriminator : UInt16)
  | passcode (passcode : UInt32)
  | salt (saltBuf : MutableByteSpan)
  | verifier (verifierBuf : MutableByteSpan) (verifierLen : Nat)

namespace HwCommissionableDataProvider

variable {spake : Spake2p}

/-- `gProvider`, in static storage. -/
def start : HwCommissionableDataProvider spake where
  mDiscriminator := 0
  mPasscode := 0
  mSalt := List.replicate kSaltLen 0
  mRawReady := false
  mVerifier := Vector.replicate _ 0
  mVerifierReady := false

/-- `Init`; it always returns `CHIP_NO_ERROR`. -/
def init (id0 id1 : UInt32) (p : HwCommissionableDataProvider spake) :
    HwCommissionableDataProvider spake :=
  { p with toHwCommissionableData := HwCommissionableData.init id0 id1 }

def getSetupDiscriminator (p : HwCommissionableDataProvider spake) (discriminator : UInt16) :
    ChipError × UInt16 :=
  if p.mRawReady then (.noError, p.mDiscriminator) else (.incorrectState, discriminator)

def getSetupPasscode (p : HwCommissionableDataProvider spake) (passcode : UInt32) :
    ChipError × UInt32 :=
  if p.mRawReady then (.noError, p.mPasscode) else (.incorrectState, passcode)

def getSpake2pSalt (p : HwCommissionableDataProvider spake) (saltBuf : MutableByteSpan) :
    ChipError × MutableByteSpan :=
  if p.mRawReady then
    if kSaltLen ≤ saltBuf.size then (.noError, saltBuf.fill p.mSalt)
    else (.bufferTooSmall, saltBuf)
  else (.incorrectState, saltBuf)

/-- `if (!mVerifierReady) { ... }` of `GetSpake2pVerifier`. -/
def fillCache (p : HwCommissionableDataProvider spake) (o : CryptoOutcome spake) :
    ChipError × HwCommissionableDataProvider spake :=
  if p.mVerifierReady then (.noError, p)
  else if o.generateErr ≠ .noError then (o.generateErr, p)
  else if o.serializeErr ≠ .noError then (o.serializeErr, { p with mVerifier := o.leftover })
  else (.noError, { p with
    mVerifier := spake.serialize (spake.generate kIterations p.mSalt p.mPasscode)
    mVerifierReady := true })

/-- The size of the caller's buffer is looked at after the cache is filled. -/
def getSpake2pVerifier (p : HwCommissionableDataProvider spake) (o : CryptoOutcome spake)
    (verifierBuf : MutableByteSpan) (verifierLen : Nat) :
    ChipError × MutableByteSpan × Nat × HwCommissionableDataProvider spake :=
  if p.mRawReady then
    let (err, p) := p.fillCache o
    if err ≠ .noError then (err, verifierBuf, verifierLen, p)
    else if spake.kVerifierLen ≤ verifierBuf.size then
      (.noError, verifierBuf.fill p.mVerifier.toList, spake.kVerifierLen, p)
    else (.bufferTooSmall, verifierBuf, verifierLen, p)
  else (.incorrectState, verifierBuf, verifierLen, p)

/-- The getter that takes these variables: its code, the variables, the provider. -/
def call (p : HwCommissionableDataProvider spake) (o : CryptoOutcome spake) :
    Out → ChipError × Out × HwCommissionableDataProvider spake
  | .discriminator discriminator =>
      let (err, discriminator) := p.getSetupDiscriminator discriminator
      (err, .discriminator discriminator, p)
  | .passcode passcode =>
      let (err, passcode) := p.getSetupPasscode passcode
      (err, .passcode passcode, p)
  | .salt saltBuf =>
      let (err, saltBuf) := p.getSpake2pSalt saltBuf
      (err, .salt saltBuf, p)
  | .verifier verifierBuf verifierLen =>
      let (err, verifierBuf, verifierLen, p) := p.getSpake2pVerifier o verifierBuf verifierLen
      (err, .verifier verifierBuf verifierLen, p)

inductive Act (spake : Spake2p)
  | init
  | call (o : CryptoOutcome spake) (out : Out)

/-- Sequences of calls on a device with this ID. -/
def machine (spake : Spake2p) (id0 id1 : UInt32) :
    Machine (HwCommissionableDataProvider spake) (Act spake) where
  init := start
  step p
    | .init => some (p.init id0 id1)
    | .call o out => some (p.call o out).2.2

/-! ### What the getters are to return -/

/-- The serialisation that belongs to salt and passcode. -/
def verifierOf (spake : Spake2p) (data : HwCommissionableData) : Vector UInt8 spake.kVerifierLen :=
  spake.serialize (spake.generate kIterations data.mSalt data.mPasscode)

/-- The caller's variables after a success. -/
def holding (spake : Spake2p) (data : HwCommissionableData) : Out → Out
  | .discriminator _ => .discriminator data.mDiscriminator
  | .passcode _ => .passcode data.mPasscode
  | .salt saltBuf => .salt (saltBuf.fill data.mSalt)
  | .verifier verifierBuf _ =>
      .verifier (verifierBuf.fill (verifierOf spake data).toList) spake.kVerifierLen

/-- The caller's buffer is large enough. -/
def Room (spake : Spake2p) : Out → Prop
  | .salt saltBuf => kSaltLen ≤ saltBuf.size
  | .verifier verifierBuf _ => spake.kVerifierLen ≤ verifierBuf.size
  | _ => True

/-- The verifier, where it is asked for, is there already or can be computed. -/
def Computable (p : HwCommissionableDataProvider spake) (o : CryptoOutcome spake) : Out → Prop
  | .verifier _ _ =>
      p.mVerifierReady = true ∨ (o.generateErr = .noError ∧ o.serializeErr = .noError)
  | _ => True

/-- **Consistent with the credentials `data`**, whatever is asked and however the crypto
library behaves. -/
structure Consistent (data : HwCommissionableData) (p : HwCommissionableDataProvider spake) :
    Prop where
  uninitialised : p.mRawReady = false → ∀ o out, p.call o out = (.incorrectState, out, p)
  failed : ∀ o out, (p.call o out).1 ≠ .noError → (p.call o out).2.1 = out
  succeeded : ∀ o out, (p.call o out).1 = .noError → (p.call o out).2.1 = holding spake data out
  succeeds_iff : ∀ o out,
    (p.call o out).1 = .noError ↔ p.mRawReady = true ∧ Room spake out ∧ p.Computable o out
  cached : p.mVerifierReady = true → p.mVerifier = verifierOf spake data

/-- The invariant: what is marked as ready belongs to `data`. -/
structure Inv (data : HwCommissionableData) (p : HwCommissionableDataProvider spake) : Prop where
  raw : p.mRawReady = true → p.toHwCommissionableData = data
  verifier : p.mVerifierReady = true → p.mRawReady = true ∧ p.mVerifier = verifierOf spake data

section

variable {data : HwCommissionableData} {p : HwCommissionableDataProvider spake}

/-- **The cache.**  It is filled with what belongs to `data`, or it stays marked as empty and
the call fails; nothing else of the provider changes. -/
theorem fillCache_spec (h : Inv data p) (hraw : p.mRawReady = true) (o : CryptoOutcome spake) :
    (p.fillCache o).2.toHwCommissionableData = p.toHwCommissionableData ∧
      ((p.fillCache o).1 = .noError ↔
        p.mVerifierReady = true ∨ (o.generateErr = .noError ∧ o.serializeErr = .noError)) ∧
      ((p.fillCache o).1 = .noError ↔ (p.fillCache o).2.mVerifierReady = true) ∧
      ((p.fillCache o).2.mVerifierReady = true →
        (p.fillCache o).2.mVerifier = verifierOf spake data) := by
  unfold fillCache
  by_cases hready : p.mVerifierReady = true
  · rw [if_pos hready]
    refine ⟨rfl, ?_, ?_, fun _ => (h.verifier hready).2⟩
    · simp [hready]
    · simp [hready]
  · rw [if_neg hready]
    by_cases hgen : o.generateErr = .noError
    · rw [if_neg (not_not.mpr hgen)]
      by_cases hser : o.serializeErr = .noError
      · rw [if_neg (not_not.mpr hser)]
        refine ⟨rfl, ?_, ?_, ?_⟩
        · simp [hgen, hser]
        · simp
        · intro _
          show spake.serialize (spake.generate kIterations p.mSalt p.mPasscode) = _
          rw [h.raw hraw]
          rfl
      · rw [if_pos hser]
        refine ⟨rfl, ?_, ?_, fun hyes => absurd hyes hready⟩
        · simp [hready, hser]
        · simp [hready, hser]
    · rw [if_pos hgen]
      refine ⟨rfl, ?_, ?_, fun hyes => absurd hyes hready⟩
      · simp [hready, hgen]
      · simp [hready, hgen]

/-- **The verifier getter**, before `Init` and after. -/
theorem getSpake2pVerifier_cases (h : Inv data p) (o : CryptoOutcome spake)
    (verifierBuf : MutableByteSpan) (verifierLen : Nat) :
    (p.mRawReady = false ∧
      p.getSpake2pVerifier o verifierBuf verifierLen
        = (.incorrectState, verifierBuf, verifierLen, p)) ∨
    ∃ p', p'.toHwCommissionableData = p.toHwCommissionableData ∧ p.mRawReady = true ∧
      (p'.mVerifierReady = true → p'.mVerifier = verifierOf spake data) ∧
      ((p.mVerifierReady = true ∨ (o.generateErr = .noError ∧ o.serializeErr = .noError)) ∧
          spake.kVerifierLen ≤ verifierBuf.size ∧
          p.getSpake2pVerifier o verifierBuf verifierLen =
            (.noError, verifierBuf.fill (verifierOf spake data).toList, spake.kVerifierLen, p') ∨
        ¬ ((p.mVerifierReady = true ∨ (o.generateErr = .noError ∧ o.serializeErr = .noError)) ∧
            spake.kVerifierLen ≤ verifierBuf.size) ∧
          ∃ err, err ≠ .noError ∧
            p.getSpake2pVerifier o verifierBuf verifierLen
              = (err, verifierBuf, verifierLen, p')) := by
  unfold getSpake2pVerifier
  by_cases hraw : p.mRawReady = true
  · obtain ⟨hdata, hok, hready, hcached⟩ := fillCache_spec h hraw o
    rw [if_pos hraw]
    refine Or.inr ⟨(p.fillCache o).2, hdata, hraw, hcached, ?_⟩
    dsimp only
    by_cases herr : (p.fillCache o).1 = .noError
    · rw [if_neg (not_not.mpr herr)]
      by_cases hroom : spake.kVerifierLen ≤ verifierBuf.size
      · rw [if_pos hroom]
        refine Or.inl ⟨hok.mp herr, hroom, ?_⟩
        rw [hcached (hready.mp herr)]
      · rw [if_neg hroom]
        exact Or.inr ⟨fun hboth => hroom hboth.2, .bufferTooSmall, by decide, rfl⟩
    · rw [if_pos herr]
      exact Or.inr ⟨fun hboth => herr (hok.mpr hboth.1), _, herr, rfl⟩
  · rw [if_neg hraw]
    exact Or.inl ⟨Bool.eq_false_iff.mpr hraw, rfl⟩

/-- Before `Init` every getter fails and leaves everything alone. -/
theorem call_of_not_raw (hraw : p.mRawReady = false) (o : CryptoOutcome spake) (out : Out) :
    p.call o out = (.incorrectState, out, p) := by
  cases out with
  | discriminator discriminator => simp [call, getSetupDiscriminator, hraw]
  | passcode passcode => simp [call, getSetupPasscode, hraw]
  | salt saltBuf => simp [call, getSpake2pSalt, hraw]
  | verifier verifierBuf verifierLen => simp [call, getSpake2pVerifier, hraw]

/-- **Every call** succeeds with what belongs to `data`, or fails and leaves the caller's
variables alone; and which of the two, is known before. -/
theorem call_cases (h : Inv data p) (o : CryptoOutcome spake) (out : Out) :
    (p.mRawReady = true ∧ Room spake out ∧ p.Computable o out) ∧
        (∃ p', p.call o out = (.noError, holding spake data out, p')) ∨
      ¬ (p.mRawReady = true ∧ Room spake out ∧ p.Computable o out) ∧
        ∃ err p', err ≠ ChipError.noError ∧ p.call o out = (err, out, p') := by
  by_cases hraw : p.mRawReady = true
  · have hdata := h.raw hraw
    cases out with
    | discriminator discriminator =>
        refine Or.inl ⟨⟨hraw, trivial, trivial⟩, p, ?_⟩
        simp [call, getSetupDiscriminator, hraw, holding, ← hdata]
    | passcode passcode =>
        refine Or.inl ⟨⟨hraw, trivial, trivial⟩, p, ?_⟩
        simp [call, getSetupPasscode, hraw, holding, ← hdata]
    | salt saltBuf =>
        by_cases hroom : kSaltLen ≤ saltBuf.size
        · refine Or.inl ⟨⟨hraw, hroom, trivial⟩, p, ?_⟩
          simp [call, getSpake2pSalt, hraw, hroom, holding, ← hdata]
        · refine Or.inr ⟨fun hall => hroom hall.2.1, .bufferTooSmall, p, by decide, ?_⟩
          simp [call, getSpake2pSalt, hraw, hroom]
    | verifier verifierBuf verifierLen =>
        rcases getSpake2pVerifier_cases h o verifierBuf verifierLen with
          ⟨hnot, -⟩ | ⟨p', -, -, -, ⟨hok, hroom, hcall⟩ | ⟨hnot, err, herr, hcall⟩⟩
        · exact absurd hraw (Bool.eq_false_iff.mp hnot)
        · refine Or.inl ⟨⟨hraw, hroom, hok⟩, p', ?_⟩
          simp only [call, hcall, holding]
        · refine Or.inr ⟨fun hall => hnot ⟨hall.2.2, hall.2.1⟩, err, p', herr, ?_⟩
          simp only [call, hcall]
  · have hcall := call_of_not_raw (Bool.eq_false_iff.mpr hraw) o out
    exact Or.inr ⟨fun hall => hraw hall.1, .incorrectState, p, by decide, hcall⟩

/-- **The invariant makes a provider consistent.** -/
theorem consistent_of_inv (h : Inv data p) : Consistent data p := by
  refine ⟨fun hraw => call_of_not_raw hraw, ?_, ?_, ?_, fun hready => (h.verifier hready).2⟩
  · intro o out hfail
    rcases call_cases h o out with ⟨-, p', hcall⟩ | ⟨-, err, p', -, hcall⟩
    · rw [hcall] at hfail
      exact absurd rfl hfail
    · rw [hcall]
  · intro o out hok
    rcases call_cases h o out with ⟨-, p', hcall⟩ | ⟨-, err, p', herr, hcall⟩
    · rw [hcall]
    · rw [hcall] at hok
      exact absurd hok herr
  · intro o out
    rcases call_cases h o out with ⟨hall, p', hcall⟩ | ⟨hnot, err, p', herr, hcall⟩
    · rw [hcall]
      exact ⟨fun _ => hall, fun _ => rfl⟩
    · rw [hcall]
      exact ⟨fun hok => absurd hok herr, fun hall => absurd hall hnot⟩

/-- A call keeps the credentials and the invariant. -/
theorem inv_call (h : Inv data p) (o : CryptoOutcome spake) (out : Out) :
    (p.call o out).2.2.toHwCommissionableData = p.toHwCommissionableData ∧
      Inv data (p.call o out).2.2 := by
  cases out with
  | discriminator discriminator => exact ⟨rfl, h⟩
  | passcode passcode => exact ⟨rfl, h⟩
  | salt saltBuf => exact ⟨rfl, h⟩
  | verifier verifierBuf verifierLen =>
      show (p.getSpake2pVerifier o verifierBuf verifierLen).2.2.2.toHwCommissionableData = _ ∧
        Inv data (p.getSpake2pVerifier o verifierBuf verifierLen).2.2.2
      have hsame : ∀ p' : HwCommissionableDataProvider spake,
          p'.toHwCommissionableData = p.toHwCommissionableData → p.mRawReady = true →
            (p'.mVerifierReady = true → p'.mVerifier = verifierOf spake data) → Inv data p' := by
        intro p' hdata hraw hcached
        have hraw' : p'.mRawReady = true := (congrArg (·.mRawReady) hdata).trans hraw
        exact ⟨fun _ => hdata.trans (h.raw hraw), fun hready => ⟨hraw', hcached hready⟩⟩
      rcases getSpake2pVerifier_cases h o verifierBuf verifierLen with
        ⟨-, hcall⟩ | ⟨p', hdata, hraw, hcached, ⟨-, -, hcall⟩ | ⟨-, err, -, hcall⟩⟩
      · rw [hcall]
        exact ⟨rfl, h⟩
      · rw [hcall]
        exact ⟨hdata, hsame p' hdata hraw hcached⟩
      · rw [hcall]
        exact ⟨hdata, hsame p' hdata hraw hcached⟩

end

/-! ### Sequences of calls -/

section

variable {id0 id1 : UInt32}

theorem inv_start :
    Inv (HwCommissionableData.init id0 id1) (start : HwCommissionableDataProvider spake) :=
  ⟨fun hraw => absurd hraw Bool.false_ne_true, fun hready => absurd hready Bool.false_ne_true⟩

/-- A second `Init` writes what the first wrote. -/
theorem inv_write {data : HwCommissionableData} {p : HwCommissionableDataProvider spake}
    (hdata : data.mRawReady = true) (h : Inv data p) :
    Inv data { p with toHwCommissionableData := data } :=
  ⟨fun _ => rfl, fun hready => ⟨hdata, (h.verifier hready).2⟩⟩

theorem mRawReady_init : (HwCommissionableData.init id0 id1).mRawReady = true := by
  simp only [HwCommissionableData.init]

theorem inv_step {p p' : HwCommissionableDataProvider spake} {a : Act spake}
    (h : Inv (HwCommissionableData.init id0 id1) p)
    (hs : (machine spake id0 id1).step p a = some p') :
    Inv (HwCommissionableData.init id0 id1) p' := by
  cases a with
  | init =>
      obtain rfl : p.init id0 id1 = p' := Option.some.inj hs
      exact inv_write mRawReady_init h
  | call o out =>
      obtain rfl := Option.some.inj hs
      exact (inv_call h o out).2

theorem inv_of_reach {p : HwCommissionableDataProvider spake}
    (h : (machine spake id0 id1).Reachable p) : Inv (HwCommissionableData.init id0 id1) p :=
  h.invariant inv_start fun _ _ _ hI _ hs => inv_step hI hs

/-- `mRawReady` says whether `Init` has been called. -/
theorem mRawReady_iff (acts : List (Act spake)) {p p' : HwCommissionableDataProvider spake}
    (h : Inv (HwCommissionableData.init id0 id1) p)
    (hrun : (machine spake id0 id1).run p acts = some p') :
    p'.mRawReady = true ↔ p.mRawReady = true ∨ Act.init ∈ acts := by
  induction acts generalizing p with
  | nil =>
      rw [Machine.run_nil, Option.some.injEq] at hrun
      rw [hrun]
      simp
  | cons a rest ih =>
      obtain ⟨p₁, hs, hrest⟩ := Option.bind_eq_some_iff.mp hrun
      rw [ih (inv_step h hs) hrest, List.mem_cons]
      cases a with
      | init =>
          obtain rfl : p.init id0 id1 = p₁ := Option.some.inj hs
          exact iff_of_true (Or.inl mRawReady_init) (Or.inr (Or.inl rfl))
      | call o out =>
          obtain rfl := Option.some.inj hs
          have hraw := congrArg (·.mRawReady) (inv_call h o out).1
          have hsame : (p.call o out).2.2.mRawReady = p.mRawReady := hraw
          rw [hsame]
          simp

/-- **The credentials are consistent, and errors do no harm.**  Whatever has been called
before, and with whatever failures: `mRawReady` says whether `Init` was; a getter that fails
leaves its caller's variables alone, and one that succeeds returns what belongs to the device
ID, the verifier being the serialisation for the salt and the passcode that the other getters
return; it succeeds as soon as its buffer is large enough and the crypto library does; and a
verifier marked as ready is that serialisation. -/
theorem provider_consistent (spake : Spake2p) (id0 id1 : UInt32) :
    (∀ acts p, (machine spake id0 id1).run (machine spake id0 id1).init acts = some p →
      (p.mRawReady = true ↔ Act.init ∈ acts)) ∧
    (∀ p, (machine spake id0 id1).Reachable p →
      Consistent (HwCommissionableData.init id0 id1) p) ∧
    (HwCommissionableData.init id0 id1).mSalt.length = kSaltLen := by
  refine ⟨?_, ?_, rfl⟩
  · intro acts p hrun
    rw [mRawReady_iff acts inv_start hrun]
    simp [start]
  · intro p hreach
    exact consistent_of_inv (inv_of_reach hreach)

end

end HwCommissionableDataProvider

end Shirokumakun
