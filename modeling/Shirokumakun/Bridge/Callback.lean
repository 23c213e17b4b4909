/-
The Matter callback, one write after the other.

`send_ir_if_changed` transmits the derived state unless `last_sent` already is that state.
Together with the snapshot at boot that makes it the cache of `Lib/Dedup.lean`, offered
the derived state at every callback for OnOff, Thermostat or FanControl of endpoint 1
(`cache_write`).  Which commands go out over any sequence of writes is then the cache's
law: the derived states with repetitions removed.
-/
import Shirokumakun.Bridge.Derive
import Shirokumakun.Lib.Dedup

namespace Shirokumakun

open Dedup

/-- The attributes, the statics, and the states that `send_ir_if_changed` encoded and
dispatched so far. -/
structure Bridge where
  store : AttributeStore
  statics : IrStatics
  dispatched : List AcState

/-- The skip test of `send_ir_if_changed`. -/
def IrStatics.unchanged (statics : IrStatics) (state : AcState) : Prop :=
  statics.lastSentValid = true ∧ state.power = statics.lastSent.power ∧
    state.mode = statics.lastSent.mode ∧ state.tempC = statics.lastSent.tempC ∧
    state.fan = statics.lastSent.fan

instance (statics : IrStatics) (state : AcState) : Decidable (statics.unchanged state) :=
  inferInstanceAs (Decidable (_ ∧ _))

/-- `send_ir_if_changed`. -/
def sendIrIfChanged (b : Bridge) : Bridge :=
  if b.statics.irReady = false then b
  else
    let state := derive b.store
    if b.statics.unchanged state then b
    else { b with
      dispatched := b.dispatched ++ [state]
      statics := { b.statics with lastSent := state, lastSentValid := true } }

/-- `MatterPostAttributeChangeCallback`. -/
def matterPostAttributeChangeCallback (b : Bridge) (attributePath : AttributePath) : Bridge :=
  let clusterId := attributePath.mClusterId
  if attributePath.mEndpointId ≠ 1 then b
  else if clusterId = onOffId then sendIrIfChanged b
  else if clusterId = thermostatId then sendIrIfChanged b
  else if clusterId = fanControlId then sendIrIfChanged b
  else b

/-- A write to an attribute. -/
structure AttributeWrite where
  path : AttributePath
  value : AttributeValue

def AttributeStore.after (store : AttributeStore) (w : AttributeWrite) : AttributeStore :=
  store.write w.path w.value

namespace Bridge

/-- When `zcl_callbacks_ready` returns. -/
def boot (store : AttributeStore) (statics : IrStatics) : Bridge :=
  ⟨store, zclCallbacksReady store statics, []⟩

/-- A write, and its callback. -/
def write (b : Bridge) (w : AttributeWrite) : Bridge :=
  matterPostAttributeChangeCallback { b with store := b.store.after w } w.path

def writes (b : Bridge) (ws : List AttributeWrite) : Bridge := ws.foldl write b

end Bridge

/-- The paths whose callbacks reach `send_ir_if_changed`. -/
def AttributePath.Watched (path : AttributePath) : Prop :=
  path.mEndpointId = 1 ∧
    (path.mClusterId = onOffId ∨ path.mClusterId = thermostatId ∨ path.mClusterId = fanControlId)

instance (path : AttributePath) : Decidable path.Watched :=
  inferInstanceAs (Decidable (_ ∧ _))

/-- The store at every callback for a watched path. -/
def watchedStores (store : AttributeStore) : List AttributeWrite → List AttributeStore
  | [] => []
  | w :: rest =>
      if w.path.Watched then store.after w :: watchedStores (store.after w) rest
      else watchedStores (store.after w) rest

/-! ### The callback -/

theorem callback_of_watched (b : Bridge) {path : AttributePath} (h : path.Watched) :
    matterPostAttributeChangeCallback b path = sendIrIfChanged b := by
  obtain ⟨hendpoint, hcluster⟩ := h
  unfold matterPostAttributeChangeCallback
  rw [if_neg (fun hne => hne hendpoint)]
  rcases hcluster with hc | hc | hc
  · rw [if_pos hc]
  · rw [hc]
    rfl
  · rw [hc]
    rfl

theorem callback_of_not_watched (b : Bridge) {path : AttributePath} (h : ¬ path.Watched) :
    matterPostAttributeChangeCallback b path = b := by
  unfold matterPostAttributeChangeCallback
  by_cases hendpoint : path.mEndpointId = 1
  · have hcluster : ¬ (path.mClusterId = onOffId ∨ path.mClusterId = thermostatId ∨
        path.mClusterId = fanControlId) := fun hc => h ⟨hendpoint, hc⟩
    rw [not_or, not_or] at hcluster
    rw [if_neg (fun hne => hne hendpoint), if_neg hcluster.1, if_neg hcluster.2.1,
      if_neg hcluster.2.2]
  · rw [if_pos hendpoint]

/-- A write that is not watched changes none of the attributes read. -/
theorem derive_after_of_not_watched (store : AttributeStore) {w : AttributeWrite}
    (h : ¬ w.path.Watched) : derive (store.after w) = derive store := by
  have hother : ∀ path : AttributePath, path.Watched → store.after w path = store path := by
    intro path hpath
    refine Function.update_of_ne ?_ _ _
    rintro rfl
    exact h hpath
  unfold derive AttributeStore.getBool AttributeStore.getEnum8 AttributeStore.getInt16
  rw [hother onOffAttr (by decide), hother systemModeAttr (by decide),
    hother occupiedCoolingSetpointAttr (by decide),
    hother occupiedHeatingSetpointAttr (by decide), hother fanModeAttr (by decide)]

theorem unchanged_iff {statics : IrStatics} (h : statics.lastSentValid = true) (state : AcState) :
    statics.unchanged state ↔ state = statics.lastSent := by
  unfold IrStatics.unchanged
  constructor
  · rintro ⟨-, hpower, hmode, htemp, hfan⟩
    cases state
    cases hl : statics.lastSent
    simp_all
  · rintro rfl
    exact ⟨h, rfl, rfl, rfl, rfl⟩

/-! ### The cache -/

namespace Bridge

/-- `zcl_callbacks_ready` has run. -/
structure Ready (b : Bridge) : Prop where
  irReady : b.statics.irReady = true
  lastSentValid : b.statics.lastSentValid = true

/-- The bridge as a cache of the last state sent. -/
def cache (b : Bridge) : Cache AcState := ⟨b.statics.lastSent, b.dispatched⟩

theorem ready_boot (store : AttributeStore) (statics : IrStatics) : (boot store statics).Ready := by
  unfold boot
  rw [zclCallbacksReady_eq]
  exact ⟨rfl, rfl⟩

/-- What `send_ir_if_changed` does once the boot is over. -/
theorem sendIrIfChanged_spec {b : Bridge} (h : b.Ready) :
    (sendIrIfChanged b).Ready ∧ (sendIrIfChanged b).store = b.store ∧
      (sendIrIfChanged b).cache = b.cache.offer (derive b.store) := by
  unfold sendIrIfChanged Cache.offer
  rw [if_neg (by simp [h.irReady])]
  by_cases hsame : derive b.store = b.cache.held
  · rw [if_pos ((unchanged_iff h.lastSentValid _).mpr hsame), if_pos hsame]
    exact ⟨h, rfl, rfl⟩
  · rw [if_neg (mt (unchanged_iff h.lastSentValid _).mp hsame), if_neg hsame]
    exact ⟨⟨h.irReady, rfl⟩, rfl, rfl⟩

/-- **One write** offers the derived state to the cache, or nothing. -/
theorem cache_write {b : Bridge} (h : b.Ready) (w : AttributeWrite) :
    (b.write w).Ready ∧ (b.write w).store = b.store.after w ∧
      (b.write w).cache =
        if w.path.Watched then b.cache.offer (derive (b.store.after w)) else b.cache := by
  let written : Bridge := { b with store := b.store.after w }
  have hready : written.Ready := ⟨h.irReady, h.lastSentValid⟩
  show (matterPostAttributeChangeCallback written w.path).Ready ∧ _
  by_cases hw : w.path.Watched
  · obtain ⟨hready', hstore, hcache⟩ := sendIrIfChanged_spec hready
    unfold write
    rw [callback_of_watched _ hw, if_pos hw]
    exact ⟨hready', hstore, hcache⟩
  · unfold write
    rw [callback_of_not_watched _ hw, if_neg hw]
    exact ⟨hready, rfl, rfl⟩

theorem cache_writes (ws : List AttributeWrite) {b : Bridge} (h : b.Ready) :
    (b.writes ws).Ready ∧
      (b.writes ws).cache = ((watchedStores b.store ws).map derive).foldl Cache.offer b.cache := by
  induction ws generalizing b with
  | nil => exact ⟨h, rfl⟩
  | cons w rest ih =>
      obtain ⟨hready, hstore, hcache⟩ := cache_write h w
      obtain ⟨hready', hrest⟩ := ih hready
      refine ⟨hready', ?_⟩
      show ((b.write w).writes rest).cache = _
      rw [hrest, hstore, hcache, watchedStores]
      by_cases hw : w.path.Watched
      · rw [if_pos hw, if_pos hw, List.map_cons, List.foldl_cons]
      · rw [if_neg hw, if_neg hw]

/-- **What the bridge sends.**  From the snapshot at boot on, the states dispatched are the
derived states at the watched callbacks with every value equal to its predecessor removed;
after each of these callbacks `last_sent` is the derived state; and the snapshot is derived
just as the states sent are, on every store. -/
theorem bridge_trace (store : AttributeStore) (statics : IrStatics) (ws : List AttributeWrite) :
    ((boot store statics).writes ws).dispatched
        = (((watchedStores store ws).map derive).destutter' (· ≠ ·) (derive store)).tail ∧
    (∀ w : AttributeWrite, w.path.Watched →
      let b := ((boot store statics).writes ws).write w
      b.statics.lastSent = derive b.store) ∧
    (zclCallbacksReady store statics).lastSent = derive store := by
  obtain ⟨hready, hcache⟩ := cache_writes ws (ready_boot store statics)
  refine ⟨?_, ?_, congrArg IrStatics.lastSent (zclCallbacksReady_eq store statics)⟩
  · have hpassed := congrArg Cache.passed hcache
    rw [Cache.offers_passed] at hpassed
    exact hpassed
  · intro w hw
    obtain ⟨-, hstore, hlast⟩ := cache_write hready w
    rw [if_pos hw] at hlast
    intro b
    show b.cache.held = derive b.store
    rw [show b.store = _ from hstore, show b.cache = _ from hlast, Cache.offer_held]

end Bridge

end Shirokumakun
