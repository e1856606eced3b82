import ChessRecast.Lib.Keyed

/-!
# The device registry (`accounts.go`)

`Register` holds its mutex from beginning to end and reads the clock once, so a run is the order of
its calls with their readings. A device that comes back is refreshed where it stands, and a ninth
one takes the place of the one seen longest ago. If the readings increase, what is stored of an
account is what a least-recently-used list of eight would hold (`registry_keeps_recent`).
-/

namespace ChessRecast.Signaling

def maxDevicesPerAccount : ℕ := 8

structure Device where
  devicePub : String
  lastSeen : ℤ
deriving DecidableEq, Repr

/-- `Registry`: `devices`, with no devices for an account that is not in the map. -/
abbrev Registry := String → List Device

/-- The dedup loop: the device, if it is there, is seen now. -/
def refresh (devicePub : String) (now : ℤ) : List Device → Option (List Device)
  | [] => none
  | d :: devs =>
    if d.devicePub = devicePub then some ({ d with lastSeen := now } :: devs)
    else (refresh devicePub now devs).map (d :: ·)

/-- The eviction loop from the index `i` on, with `devs[oldest]` so far. -/
def oldestFrom (oldest : ℕ) (seen : Device) : ℕ → List Device → ℕ
  | _, [] => oldest
  | i, d :: devs =>
    if d.lastSeen < seen.lastSeen then oldestFrom i d (i + 1) devs
    else oldestFrom oldest seen (i + 1) devs

def evictOldest : List Device → List Device
  | [] => []
  | d :: devs => (d :: devs).eraseIdx (oldestFrom 0 d 0 (d :: devs))

/-- `Register`, on the devices of the account. -/
def registerDevice (devs : List Device) (devicePub : String) (now : ℤ) : List Device :=
  match refresh devicePub now devs with
  | some devs => devs
  | none =>
    (if devs.length ≥ maxDevicesPerAccount then evictOldest devs else devs) ++ [⟨devicePub, now⟩]

/-- A call of `Register` and its reading of the clock. -/
structure Registration where
  accountPub : String
  devicePub : String
  now : ℤ

def Registry.register (r : Registry) (call : Registration) : Registry :=
  Function.update r call.accountPub
    (registerDevice (r call.accountPub) call.devicePub call.now)

def newRegistry : Registry := fun _ => []

/-! ## The latest calls -/

/-- When the device was last registered for the account. -/
def latest (calls : List Registration) (accountPub devicePub : String) : Option ℤ :=
  (calls.filter fun call => call.accountPub = accountPub ∧ call.devicePub = devicePub).getLast?.map
    Registration.now

/-- The devices ever registered for the account. -/
def registered (calls : List Registration) (accountPub : String) : List String :=
  ((calls.filter fun call => call.accountPub = accountPub).map Registration.devicePub).dedup

/-- The devices of the account whose latest call is after `t`. -/
def laterThan (calls : List Registration) (accountPub : String) (t : ℤ) : List String :=
  (registered calls accountPub).filter fun p => (latest calls accountPub p).any (t < ·)

/-! ## One call -/

section

variable {devs : List Device} {devicePub : String} {now : ℤ}

theorem refresh_of_absent (h : ∀ d ∈ devs, d.devicePub ≠ devicePub) :
    refresh devicePub now devs = none := by
  induction devs with
  | nil => rfl
  | cons d devs ih =>
    rw [List.forall_mem_cons] at h
    rw [refresh, if_neg h.1, ih h.2]
    rfl

theorem refresh_split {before after : List Device} {d : Device}
    (h : ∀ e ∈ before, e.devicePub ≠ d.devicePub) :
    refresh d.devicePub now (before ++ d :: after) =
      some (before ++ ⟨d.devicePub, now⟩ :: after) := by
  induction before with
  | nil => simp [refresh]
  | cons e before ih =>
    rw [List.forall_mem_cons] at h
    rw [List.cons_append, refresh, if_neg h.1, ih h.2]
    rfl

/-- The loop ends at a device that was seen no later than any other. -/
theorem oldestFrom_spec (rest : List Device) :
    ∀ (before : List Device) (oldest : ℕ) (seen : Device),
      devs = before ++ rest → devs[oldest]? = some seen →
      (∀ d ∈ before, seen.lastSeen ≤ d.lastSeen) →
      ∃ d, devs[oldestFrom oldest seen before.length rest]? = some d ∧
        ∀ d' ∈ devs, d.lastSeen ≤ d'.lastSeen := by
  induction rest with
  | nil =>
    intro before oldest seen hdevs hseen hle
    rw [List.append_nil] at hdevs
    exact ⟨seen, hseen, hdevs ▸ hle⟩
  | cons d rest ih =>
    intro before oldest seen hdevs hseen hle
    have hsplit : devs = (before ++ [d]) ++ rest := by rw [hdevs, List.append_assoc]; rfl
    have hd : devs[before.length]? = some d := by rw [hdevs]; simp
    have hlength : (before ++ [d]).length = before.length + 1 := by simp
    unfold oldestFrom
    split
    · next hlt =>
      rw [← hlength]
      apply ih (before ++ [d]) before.length d hsplit hd
      rw [List.forall_mem_append, List.forall_mem_singleton]
      exact ⟨fun d' hd' => hlt.le.trans (hle d' hd'), le_rfl⟩
    · next hlt =>
      rw [← hlength]
      apply ih (before ++ [d]) oldest seen hsplit hseen
      rw [List.forall_mem_append, List.forall_mem_singleton]
      exact ⟨hle, not_lt.mp hlt⟩

theorem evictOldest_split (hne : devs ≠ []) :
    ∃ before d after, devs = before ++ d :: after ∧ evictOldest devs = before ++ after ∧
      ∀ e ∈ devs, d.lastSeen ≤ e.lastSeen := by
  cases devs with
  | nil => exact absurd rfl hne
  | cons d devs =>
    obtain ⟨d', hd', hle⟩ := oldestFrom_spec (d :: devs) [] 0 d rfl rfl (by simp)
    obtain ⟨hlt, hget⟩ := List.getElem?_eq_some_iff.mp hd'
    refine ⟨_, d', _, ?_, List.eraseIdx_eq_take_drop_succ _ _, hle⟩
    rw [← hget]
    show d :: devs = _ ++ (d :: devs)[oldestFrom 0 d 0 (d :: devs)] :: _
    rw [List.getElem_cons_drop, List.take_append_drop]

/-! ## The invariant -/

/-- The devices are distinct and at most eight, each seen at its latest call; one that is no longer
stored had its latest call before those of the eight that are. -/
structure Recent (devs : List Device) (latest : String → Option ℤ) : Prop where
  distinct : Keyed.Distinct Device.devicePub devs
  times : Keyed.Distinct Device.lastSeen devs
  seen : ∀ d ∈ devs, latest d.devicePub = some d.lastSeen
  length_le : devs.length ≤ maxDevicesPerAccount
  evicted : ∀ p t, latest p = some t → (∀ d ∈ devs, d.devicePub ≠ p) →
    devs.length = maxDevicesPerAccount ∧ ∀ d ∈ devs, t < d.lastSeen

variable {latest : String → Option ℤ} {kept devs' : List Device}

/-- Every branch of a call leaves the device, seen now, and what it keeps of the others. -/
theorem Recent.seen_now (h : Recent devs latest) (hnow : ∀ p t, latest p = some t → t < now)
    (hperm : devs'.Perm (⟨devicePub, now⟩ :: kept)) (hsub : kept.Sublist devs)
    (hother : ∀ e ∈ kept, e.devicePub ≠ devicePub) (hlength : devs'.length ≤ maxDevicesPerAccount)
    (hgone : ∀ p t, p ≠ devicePub → latest p = some t → (∀ e ∈ kept, e.devicePub ≠ p) →
      devs'.length = maxDevicesPerAccount ∧ ∀ e ∈ kept, t < e.lastSeen) :
    Recent devs' (Function.update latest devicePub (some now)) where
  distinct := by
    apply Keyed.Distinct.perm _ hperm.symm
    exact List.pairwise_cons.mpr ⟨fun e he => (hother e he).symm, h.distinct.sublist hsub⟩
  times := by
    apply Keyed.Distinct.perm _ hperm.symm
    apply List.pairwise_cons.mpr ⟨fun e he => ?_, h.times.sublist hsub⟩
    exact (hnow _ _ (h.seen e (hsub.subset he))).ne'
  seen := by
    intro e he
    rcases List.mem_cons.mp (hperm.subset he) with rfl | he
    · exact Function.update_self ..
    · rw [Function.update_of_ne (hother e he), h.seen e (hsub.subset he)]
  length_le := hlength
  evicted := by
    intro p t hp habsent
    simp only [hperm.mem_iff, List.forall_mem_cons] at habsent ⊢
    rw [Function.update_of_ne habsent.1.symm] at hp
    obtain ⟨hfull, hlater⟩ := hgone p t habsent.1.symm hp habsent.2
    exact ⟨hfull, hnow p t hp, hlater⟩

theorem Recent.register (h : Recent devs latest) (hnow : ∀ p t, latest p = some t → t < now) :
    Recent (registerDevice devs devicePub now) (Function.update latest devicePub (some now)) := by
  unfold registerDevice
  by_cases hstored : ∃ d ∈ devs, d.devicePub = devicePub
  · obtain ⟨d, hd, rfl⟩ := hstored
    obtain ⟨before, after, rfl⟩ := List.append_of_mem hd
    have hdiffer := (List.pairwise_cons.mp (h.distinct.perm List.perm_middle)).1
    rw [refresh_split fun e he => (hdiffer e (List.mem_append_left _ he)).symm]
    apply h.seen_now hnow List.perm_middle ((List.sublist_cons_self d after).append_left before)
    · exact fun e he => (hdiffer e he).symm
    · simpa using h.length_le
    · intro p t hp hlatest hkept
      obtain ⟨hfull, hlater⟩ := h.evicted p t hlatest (by
        simp only [List.perm_middle.mem_iff, List.forall_mem_cons]
        exact ⟨hp.symm, hkept⟩)
      simp only [List.perm_middle.mem_iff, List.forall_mem_cons] at hlater
      exact ⟨by simpa using hfull, hlater.2⟩
  · have habsent : ∀ e ∈ devs, e.devicePub ≠ devicePub :=
      fun e he heq => hstored ⟨e, he, heq⟩
    rw [refresh_of_absent habsent]
    dsimp only
    split
    · next hfull =>
      have hlength : devs.length = 8 := le_antisymm h.length_le hfull
      obtain ⟨before, d, after, rfl, hevict, hle⟩ :=
        evictOldest_split (List.ne_nil_of_length_eq_add_one hlength)
      have hsub := (List.sublist_cons_self d after).append_left before
      have hlater := (List.pairwise_cons.mp (h.times.perm List.perm_middle)).1
      have hseen := h.seen d (by simp)
      have hlength' : (before ++ after ++ [Device.mk devicePub now]).length = 8 := by
        simpa using hlength
      rw [hevict]
      apply h.seen_now hnow (List.perm_append_singleton _ _) hsub
      · exact fun e he => habsent e (hsub.subset he)
      · exact hlength'.le
      · intro p t hp hlatest hkept
        refine ⟨hlength', fun e he => ?_⟩
        by_cases hd : d.devicePub = p
        · -- the device that goes: its call was before all others
          rw [← hd, hseen] at hlatest
          cases hlatest
          exact lt_of_le_of_ne (hle e (hsub.subset he)) (hlater e he)
        · apply (h.evicted p t hlatest ?_).2 e (hsub.subset he)
          simp only [List.perm_middle.mem_iff, List.forall_mem_cons]
          exact ⟨hd, hkept⟩
    · next hroom =>
      apply h.seen_now hnow (List.perm_append_singleton _ _) (List.Sublist.refl _) habsent
      · simpa using not_le.mp hroom
      · -- as long as there is room nothing was evicted
        exact fun p t _ hp hkept => absurd (h.evicted p t hp hkept).1.ge hroom

end

/-! ## Runs -/

theorem latest_append (calls : List Registration) (call : Registration) :
    latest (calls ++ [call]) call.accountPub =
      Function.update (latest calls call.accountPub) call.devicePub (some call.now) := by
  funext p
  unfold latest
  rw [List.filter_append, Function.update_apply]
  by_cases hp : p = call.devicePub
  · simp [hp]
  · simp [hp, Ne.symm hp]

theorem latest_append_of_ne (calls : List Registration) {call : Registration} {accountPub : String}
    (h : accountPub ≠ call.accountPub) :
    latest (calls ++ [call]) accountPub = latest calls accountPub := by
  funext p
  unfold latest
  simp [h.symm]

theorem exists_call_of_latest {calls : List Registration} {accountPub p : String} {t : ℤ}
    (h : latest calls accountPub p = some t) :
    ∃ call ∈ calls, call.accountPub = accountPub ∧ call.devicePub = p ∧ call.now = t := by
  obtain ⟨call, hlast, rfl⟩ := Option.map_eq_some_iff.mp h
  have hmem := List.mem_filter.mp (List.mem_of_getLast? hlast)
  have hcall := of_decide_eq_true hmem.2
  exact ⟨call, hmem.1, hcall.1, hcall.2, rfl⟩

theorem recent_run (calls : List Registration)
    (hclock : (calls.map Registration.now).Pairwise (· < ·)) (accountPub : String) :
    Recent (calls.foldl Registry.register newRegistry accountPub) (latest calls accountPub) := by
  induction calls using List.reverseRecOn with
  | nil => constructor <;> simp [newRegistry, latest, Keyed.Distinct]
  | append_singleton calls call ih =>
    rw [List.map_append, List.pairwise_append] at hclock
    rw [List.foldl_append]
    show Recent (Registry.register _ call accountPub) _
    unfold Registry.register
    by_cases haccount : accountPub = call.accountPub
    · rw [haccount, Function.update_self, latest_append]
      refine Recent.register (haccount ▸ ih hclock.1) fun p t hp => ?_
      obtain ⟨earlier, hmem, -, -, rfl⟩ := exists_call_of_latest hp
      exact hclock.2.2 _ (List.mem_map.mpr ⟨earlier, hmem, rfl⟩) _ (by simp)
    · rw [Function.update_of_ne haccount, latest_append_of_ne calls haccount]
      exact ih hclock.1

theorem nodup_laterThan {calls : List Registration} {accountPub : String} {t : ℤ} :
    (laterThan calls accountPub t).Nodup := (List.nodup_dedup _).filter _

theorem mem_laterThan {calls : List Registration} {accountPub p : String} {t : ℤ} :
    p ∈ laterThan calls accountPub t ↔ ∃ u, latest calls accountPub p = some u ∧ t < u := by
  rw [laterThan, List.mem_filter, Option.any_eq_true]
  simp only [decide_eq_true_eq]
  refine and_iff_right_of_imp fun ⟨u, hu, _⟩ => ?_
  obtain ⟨call, hmem, haccount, hdevice, -⟩ := exists_call_of_latest hu
  rw [registered, List.mem_dedup]
  exact List.mem_map.mpr ⟨call, List.mem_filter.mpr ⟨hmem, by simpa using haccount⟩, hdevice⟩

/-- With increasing readings of the clock the stored devices of an account are distinct, at most
eight, and those after whose latest call fewer than eight others were registered; a call changes
the devices of its account only. -/
theorem registry_keeps_recent (calls : List Registration)
    (hclock : (calls.map Registration.now).Pairwise (· < ·)) (accountPub : String) :
    let stored := (calls.foldl Registry.register newRegistry accountPub).map Device.devicePub
    stored.Nodup ∧ stored.length ≤ 8 ∧
      (∀ p, p ∈ stored ↔ ∃ t, latest calls accountPub p = some t ∧
        (laterThan calls accountPub t).length < 8) ∧
      ∀ (r : Registry) (call : Registration), call.accountPub ≠ accountPub →
        r.register call accountPub = r accountPub := by
  have h := recent_run calls hclock accountPub
  intro stored
  have hnodup : stored.Nodup := List.pairwise_map.mpr h.distinct
  have hcap : stored.length ≤ 8 := by
    simpa [stored, maxDevicesPerAccount] using h.length_le
  refine ⟨hnodup, hcap, fun p => ⟨fun hp => ?_, fun hrecent => ?_⟩,
    fun r call hne => Function.update_of_ne hne.symm _ _⟩
  · obtain ⟨d, hd, rfl⟩ := List.mem_map.mp hp
    refine ⟨d.lastSeen, h.seen d hd, ?_⟩
    -- what came later is stored, and it is another device
    have hsub : laterThan calls accountPub d.lastSeen ⊆ stored.erase d.devicePub := by
      intro q hq
      obtain ⟨u, hu, hlt⟩ := mem_laterThan.mp hq
      rw [hnodup.mem_erase_iff]
      constructor
      · intro heq
        rw [heq, h.seen d hd] at hu
        cases hu
        exact lt_irrefl _ hlt
      · by_contra hnot
        apply lt_asymm hlt ((h.evicted q u hu fun e he heq => hnot ?_).2 d hd)
        exact List.mem_map.mpr ⟨e, he, heq⟩
    have hle := (nodup_laterThan.subperm hsub).length_le
    have hpos := List.length_pos_of_mem hp
    rw [List.length_erase_of_mem hp] at hle
    omega
  · obtain ⟨t, ht, hfew⟩ := hrecent
    by_contra hnot
    obtain ⟨hlength, hlater⟩ :=
      h.evicted p t ht fun e he heq => hnot (List.mem_map.mpr ⟨e, he, heq⟩)
    have hsub : stored ⊆ laterThan calls accountPub t := by
      intro q hq
      obtain ⟨d, hd, rfl⟩ := List.mem_map.mp hq
      exact mem_laterThan.mpr ⟨d.lastSeen, h.seen d hd, hlater d hd⟩
    have hle := (hnodup.subperm hsub).length_le
    rw [List.length_map, hlength, maxDevicesPerAccount] at hle
    omega

/-- A second call for a device of an account that has one other. -/
theorem registry_keeps_recent_twice :
    let calls : List Registration := [⟨"a", "x", 1⟩, ⟨"a", "y", 2⟩, ⟨"a", "x", 3⟩]
    (calls.map Registration.now).Pairwise (· < ·) ∧
      ((calls.foldl Registry.register newRegistry "a").map Device.devicePub).Nodup :=
  ⟨by decide,
    (registry_keeps_recent [⟨"a", "x", 1⟩, ⟨"a", "y", 2⟩, ⟨"a", "x", 3⟩] (by decide) "a").1⟩

end ChessRecast.Signaling
