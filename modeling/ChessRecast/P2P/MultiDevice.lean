import ChessRecast.Lib.Keyed

/-!
# Routing an offer to the devices of an account (`multi_device_router.dart`)

An offer goes to the devices that are reachable, and every answer is reported with a winner and the
losers. The router keeps no trace of an answer: each one is reported as if it were the first, and
its losers are those who are reachable at that moment. So the first answer wins exactly if no other
device answers and every other device the offer went to is reachable at one of the answers
(`first_to_answer_iff`).
-/

namespace ChessRecast.P2P

structure AccountDevice where
  devicePubKey : List UInt8
  deviceName : String
  isReachable : Bool := true
deriving DecidableEq, Repr

structure MultiDeviceRouter where
  devices : List AccountDevice := []
deriving DecidableEq, Repr

/-- What `firstToAnswer` returns. -/
structure AnswerReport where
  winner : AccountDevice
  losers : List AccountDevice
deriving DecidableEq, Repr

namespace MultiDeviceRouter

def markReachable (r : MultiDeviceRouter) (devicePubKey : List UInt8) (reachable : Bool) :
    MultiDeviceRouter :=
  { devices := r.devices.map fun d =>
      if d.devicePubKey = devicePubKey then { d with isReachable := reachable } else d }

def reachableDevices (r : MultiDeviceRouter) : List AccountDevice :=
  r.devices.filter AccountDevice.isReachable

def dispatchOffer (r : MultiDeviceRouter) : List AccountDevice := r.reachableDevices

/-- `firstToAnswer`; `none` is the `StateError` of `firstWhere`. -/
def firstToAnswer (r : MultiDeviceRouter) (answeringDevicePubKey : List UInt8) :
    Option AnswerReport :=
  (Keyed.lookup AccountDevice.devicePubKey r.devices answeringDevicePubKey).map fun winner =>
    { winner
      losers := r.devices.filter fun d =>
        d.devicePubKey ≠ answeringDevicePubKey ∧ d.isReachable = true }

end MultiDeviceRouter

/-- What happens after an offer was dispatched. -/
inductive DeviceEvent where
  | markReachable (devicePubKey : List UInt8) (reachable : Bool)
  | answer (devicePubKey : List UInt8)
deriving DecidableEq, Repr

namespace MultiDeviceRouter

/-- The device list changes with reachability only. -/
def step (r : MultiDeviceRouter) : DeviceEvent → MultiDeviceRouter
  | .markReachable devicePubKey reachable => r.markReachable devicePubKey reachable
  | .answer _ => r

/-- The reports of the answers, in their order. -/
def reports : MultiDeviceRouter → List DeviceEvent → List AnswerReport
  | _, [] => []
  | r, .markReachable devicePubKey reachable :: events =>
    reports (r.markReachable devicePubKey reachable) events
  | r, .answer devicePubKey :: events => (r.firstToAnswer devicePubKey).toList ++ reports r events

/-- The device that answers first. -/
def firstAnswer : List DeviceEvent → Option (List UInt8)
  | [] => none
  | .markReachable _ _ :: events => firstAnswer events
  | .answer devicePubKey :: _ => some devicePubKey

/-- Whether a device is reachable after the events, from whether it was before. -/
def reachableAfter (devicePubKey : List UInt8) : Bool → List DeviceEvent → Bool
  | current, [] => current
  | current, .markReachable key reachable :: events =>
    reachableAfter devicePubKey (if devicePubKey = key then reachable else current) events
  | current, .answer _ :: events => reachableAfter devicePubKey current events

/-- The first device to answer is the only winner, and every other device that the offer was
dispatched to is a loser in one of the reports. -/
def FirstWins (r : MultiDeviceRouter) (events : List DeviceEvent) : Prop :=
  ∀ first, firstAnswer events = some first →
    (∀ report ∈ r.reports events, report.winner.devicePubKey = first) ∧
    ∀ d ∈ r.dispatchOffer, d.devicePubKey ≠ first →
      ∃ report ∈ r.reports events, ∃ loser ∈ report.losers, loser.devicePubKey = d.devicePubKey

/-- Only one device answers, and every other device that the offer was dispatched to is reachable
at one of its answers. -/
def OneAnswers (r : MultiDeviceRouter) (events : List DeviceEvent) : Prop :=
  ∀ first, firstAnswer events = some first →
    (∀ key, .answer key ∈ events → key = first) ∧
    ∀ d ∈ r.dispatchOffer, d.devicePubKey ≠ first → ∃ earlier later,
      events = earlier ++ .answer first :: later ∧ reachableAfter d.devicePubKey true earlier = true

/-! ## The devices after some events -/

variable {r : MultiDeviceRouter} {events earlier : List DeviceEvent} {key : List UInt8}
  {d : AccountDevice} {report : AnswerReport}

theorem devices_foldl_step (r : MultiDeviceRouter) (events : List DeviceEvent) :
    (events.foldl step r).devices = r.devices.map fun d =>
      { d with isReachable := reachableAfter d.devicePubKey d.isReachable events } := by
  induction events generalizing r with
  | nil => exact (List.map_id' _).symm
  | cons e events ih =>
    rw [List.foldl_cons, ih]
    cases e with
    | answer key => rfl
    | markReachable key reachable =>
      show ((r.devices.map _).map _) = _
      rw [List.map_map]
      refine List.map_congr_left fun d _ => ?_
      dsimp only [Function.comp]
      rw [reachableAfter]
      by_cases hkey : d.devicePubKey = key
      · rw [if_pos hkey, if_pos hkey]
      · rw [if_neg hkey, if_neg hkey]

theorem mem_reports : report ∈ r.reports events ↔ ∃ earlier key later,
    events = earlier ++ .answer key :: later ∧
      (earlier.foldl step r).firstToAnswer key = some report := by
  induction events generalizing r with
  | nil => simp [reports]
  | cons e events ih =>
    -- the answer is the first event, or it comes after it
    have hsplit : ∀ P : List DeviceEvent → List UInt8 → Prop,
        (∃ earlier key later, e :: events = earlier ++ .answer key :: later ∧ P earlier key) ↔
        (∃ key, e = .answer key ∧ P [] key) ∨ ∃ earlier key later,
          events = earlier ++ .answer key :: later ∧ P (e :: earlier) key := by
      intro P
      constructor
      · rintro ⟨earlier, key, later, heq, hP⟩
        cases earlier with
        | nil => exact .inl ⟨key, (List.cons.inj heq).1, hP⟩
        | cons e' earlier =>
          obtain ⟨rfl, hrest⟩ := List.cons.inj heq
          exact .inr ⟨earlier, key, later, hrest, hP⟩
      · rintro (⟨key, rfl, hP⟩ | ⟨earlier, key, later, rfl, hP⟩)
        · exact ⟨[], key, events, rfl, hP⟩
        · exact ⟨e :: earlier, key, later, rfl, hP⟩
    rw [hsplit fun earlier key => (earlier.foldl step r).firstToAnswer key = some report]
    cases e with
    | answer key =>
      show report ∈ (r.firstToAnswer key).toList ++ r.reports events ↔ _
      rw [List.mem_append, ih, Option.mem_toList]
      refine or_congr ?_ Iff.rfl
      exact ⟨fun h => ⟨key, rfl, h⟩, fun ⟨key', heq, h⟩ => by cases heq; exact h⟩
    | markReachable key reachable =>
      show report ∈ (r.markReachable key reachable).reports events ↔ _
      rw [ih]
      exact (or_iff_right fun ⟨_, heq, _⟩ => (by cases heq)).symm

theorem answer_mem_of_firstAnswer (h : firstAnswer events = some key) : .answer key ∈ events := by
  induction events with
  | nil => cases h
  | cons e events ih =>
    cases e with
    | answer key' =>
      obtain rfl := Option.some.inj h
      exact List.mem_cons_self
    | markReachable _ _ => exact List.mem_cons_of_mem _ (ih h)

theorem firstToAnswer_of_registered (hkey : key ∈ r.devices.map AccountDevice.devicePubKey)
    (earlier : List DeviceEvent) :
    ∃ report, (earlier.foldl step r).firstToAnswer key = some report ∧
      report.winner.devicePubKey = key := by
  obtain ⟨d, hd, rfl⟩ := List.mem_map.mp hkey
  unfold firstToAnswer
  cases hfind : Keyed.lookup AccountDevice.devicePubKey (earlier.foldl step r).devices
      d.devicePubKey with
  | none =>
    rw [Keyed.lookup_eq_none_iff, devices_foldl_step] at hfind
    exact (hfind _ (List.mem_map_of_mem hd) rfl).elim
  | some winner => exact ⟨_, rfl, (Keyed.mem_of_lookup hfind).2⟩

theorem winner_of_firstToAnswer (h : r.firstToAnswer key = some report) :
    report.winner.devicePubKey = key := by
  obtain ⟨winner, hfind, rfl⟩ := Option.map_eq_some_iff.mp h
  exact (Keyed.mem_of_lookup hfind).2

theorem loser_iff (hkeys : Keyed.Distinct AccountDevice.devicePubKey r.devices) (hd : d ∈ r.devices)
    (h : (earlier.foldl step r).firstToAnswer key = some report) :
    (∃ loser ∈ report.losers, loser.devicePubKey = d.devicePubKey) ↔
      d.devicePubKey ≠ key ∧ reachableAfter d.devicePubKey d.isReachable earlier = true := by
  obtain ⟨winner, -, rfl⟩ := Option.map_eq_some_iff.mp h
  simp only [List.mem_filter, decide_eq_true_eq, devices_foldl_step]
  constructor
  · rintro ⟨loser, ⟨hmem, hne, hreach⟩, hsame⟩
    obtain ⟨d', hd', rfl⟩ := List.mem_map.mp hmem
    obtain rfl := hkeys.eq_of_key hd' hd hsame
    exact ⟨hne, hreach⟩
  · rintro ⟨hne, hreach⟩
    exact ⟨_, ⟨List.mem_map_of_mem hd, hne, hreach⟩, rfl⟩

/-- For every set of devices with distinct keys and every sequence of answers of registered devices
and of changes of reachability: the first device to answer is the only winner, and every other
device that the offer went to is reported as a loser, exactly if no other device answers and each of
them is reachable at an answer. -/
theorem first_to_answer_iff (r : MultiDeviceRouter)
    (hkeys : Keyed.Distinct AccountDevice.devicePubKey r.devices) (events : List DeviceEvent)
    (hreg : ∀ key, .answer key ∈ events → key ∈ r.devices.map AccountDevice.devicePubKey) :
    r.FirstWins events ↔ r.OneAnswers events := by
  unfold FirstWins OneAnswers
  refine forall_congr' fun first => imp_congr_right fun hfirst => ?_
  have hwinner : (∀ report ∈ r.reports events, report.winner.devicePubKey = first) ↔
      ∀ key, .answer key ∈ events → key = first := by
    constructor
    · intro h key hkey
      obtain ⟨earlier, later, heq⟩ := List.append_of_mem hkey
      obtain ⟨report, hreport, hkey'⟩ := firstToAnswer_of_registered (hreg key hkey) earlier
      rw [← hkey']
      exact h report (mem_reports.mpr ⟨earlier, key, later, heq, hreport⟩)
    · intro h report hreport
      obtain ⟨earlier, key, later, heq, hans⟩ := mem_reports.mp hreport
      rw [winner_of_firstToAnswer hans]
      exact h key (by rw [heq]; exact List.mem_append_right _ List.mem_cons_self)
  rw [hwinner]
  refine and_congr_right fun hone => forall_congr' fun d => imp_congr_right fun hd =>
    imp_congr_right fun hne => ?_
  obtain ⟨hmem, hreach⟩ := List.mem_filter.mp hd
  constructor
  · rintro ⟨report, hreport, hloser⟩
    obtain ⟨earlier, key, later, heq, hans⟩ := mem_reports.mp hreport
    have hkey : key = first :=
      hone key (by rw [heq]; exact List.mem_append_right _ List.mem_cons_self)
    rw [loser_iff hkeys hmem hans, hreach] at hloser
    exact ⟨earlier, later, hkey ▸ heq, hloser.2⟩
  · rintro ⟨earlier, later, heq, hafter⟩
    have hfirst' := hreg first (answer_mem_of_firstAnswer hfirst)
    obtain ⟨report, hans, -⟩ := firstToAnswer_of_registered hfirst' earlier
    refine ⟨report, mem_reports.mpr ⟨earlier, first, later, heq, hans⟩, ?_⟩
    rw [loser_iff hkeys hmem hans, hreach]
    exact ⟨hne, hafter⟩

/-- A phone and a tablet. -/
def twoDevices : MultiDeviceRouter :=
  { devices := [⟨[1], "phone", true⟩, ⟨[2], "tablet", true⟩] }

/-- Only the phone answers, and the tablet is reachable then. -/
theorem first_to_answer_phone : Keyed.Distinct AccountDevice.devicePubKey twoDevices.devices ∧
    twoDevices.FirstWins [.answer [1], .markReachable [2] false] := by
  refine ⟨by decide, (first_to_answer_iff _ (by decide) _ fun key hkey => ?_).mpr ?_⟩
  · simp only [List.mem_cons, DeviceEvent.answer.injEq, reduceCtorEq, List.not_mem_nil, or_false]
      at hkey
    rw [hkey]
    decide
  · intro first hfirst
    obtain rfl : [1] = first := Option.some.inj hfirst
    refine ⟨fun key hkey => ?_, fun d hd hne => ?_⟩
    · simpa using hkey
    · exact ⟨[], [.markReachable [2] false], rfl, rfl⟩

/-- Both devices answer and both win; and a tablet that has become unreachable is not told to
abort. -/
theorem both_devices_win :
    (twoDevices.reports [.answer [1], .answer [2]]).map (fun report => report.winner.devicePubKey) =
      [[1], [2]] ∧
    twoDevices.dispatchOffer = twoDevices.devices ∧
    (twoDevices.reports [.markReachable [2] false, .answer [1]]).map AnswerReport.losers = [[]] := by
  decide

end MultiDeviceRouter

end ChessRecast.P2P
