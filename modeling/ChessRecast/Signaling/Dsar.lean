import ChessRecast.Lib.Machine
import ChessRecast.Lib.Outcome
import ChessRecast.Signaling.Time

/-!
# Erasure requests (`dsar.go` over the tables of `store.go`)

The database has five tables of the store with personal data and two of the package `dsar`. A
deletion request runs one statement, on `dsar_accounts`; the audit rows of the account go with it
only if the connection enforces foreign keys. The package asks for that with `_foreign_keys=on`;
whether the driver understands this parameter is left open here, and both answers are covered. The
request erases everything exactly if the tables of the store hold nothing of the account and foreign
keys are enforced or the account has no audit row (`erasure_iff`).
-/

namespace ChessRecast.Signaling

/-- `time.Parse` with `time.RFC3339`, and `UTC().Format` with the same layout. -/
structure Rfc3339 where
  parse : String → Except String ℤ
  format : ℤ → String

/-! ## The tables -/

/-- A row of `accounts`. -/
structure AccountRow where
  accountPub : String
  devicePub : String
  lastSeenTs : ℤ
  ipCoarse : String := ""
  wrappedBlob : Option (List UInt8) := none
deriving DecidableEq, Repr

/-- A row of `offers`. -/
structure OfferRow where
  id : String
  senderPub : String
  recipientPub : String
  sdpPayload : String
  createdAt : ℤ
  expiresAt : ℤ
deriving DecidableEq, Repr

/-- A row of `ice_candidates`. -/
structure IceCandidateRow where
  id : ℕ
  sessionId : String
  candidate : String
  createdAt : ℤ
deriving DecidableEq, Repr

/-- A row of `push_tokens`. -/
structure PushTokenRow where
  devicePub : String
  tokenEnc : List UInt8
  provider : String
  lastSeenTs : ℤ
deriving DecidableEq, Repr

/-- A row of `rebind_audit`. -/
structure RebindAuditRow where
  accountPub : String
  eventTs : ℤ
  eventType : String
deriving DecidableEq, Repr

/-- A row of `dsar_accounts`. -/
structure DsarAccountRow where
  pubkey : String
  pushTokenHash : String
  lastSeen : String
deriving DecidableEq, Repr

/-- A row of `dsar_audit`. -/
structure DsarAuditRow where
  id : ℕ
  pubkey : String
  eventType : String
  occurredAt : String
deriving DecidableEq, Repr

/-- `store.DB` and what its connection sees: the mode, whether foreign keys are enforced, which
tables exist, the tables, and the last key that each `AUTOINCREMENT` has given out. -/
structure Database where
  readOnly : Bool := false
  foreignKeys : Bool
  hasSchema : Bool := false
  hasDsar : Bool := false
  accounts : List AccountRow := []
  offers : List OfferRow := []
  iceCandidates : List IceCandidateRow := []
  pushTokens : List PushTokenRow := []
  rebindAudit : List RebindAuditRow := []
  dsarAccounts : List DsarAccountRow := []
  dsarAudit : List DsarAuditRow := []
  lastIceCandidate : ℕ := 0
  lastAudit : ℕ := 0
deriving DecidableEq, Repr

/-- Why a statement fails. -/
inductive StoreError where
  | readOnly
  | noSuchTable (name : String)
  | primaryKey (name : String)
  | foreignKey
deriving DecidableEq, Repr

/-- An error of the package `dsar`: a text, and the error that it wraps. -/
inductive DsarError where
  | plain (text : String)
  | wraps (text : String) (cause : StoreError)
  | timestamp (text cause : String)
deriving DecidableEq, Repr

namespace Database

/-- `Open` -/
def opened (foreignKeys : Bool) : Database := { foreignKeys }

/-- `ExecWrite` up to the statement: the mode, and whether the table exists. -/
def writable (db : Database) (present : Bool) (name : String) : Except StoreError Unit :=
  if db.readOnly then .error .readOnly
  else if present then .ok () else .error (.noSuchTable name)

/-! ## Statements on the tables of the store -/

/-- `InitSchema`, which does not look at the mode. -/
def initSchema (db : Database) : Database := { db with hasSchema := true }

/-- `INSERT INTO accounts` -/
def insertAccount (db : Database) (row : AccountRow) : Except StoreError Database := do
  db.writable db.hasSchema "accounts"
  if db.accounts.any fun r => r.accountPub = row.accountPub then
    throw (.primaryKey "accounts.account_pub")
  else return { db with accounts := db.accounts ++ [row] }

/-- `INSERT INTO offers` -/
def insertOffer (db : Database) (row : OfferRow) : Except StoreError Database := do
  db.writable db.hasSchema "offers"
  if db.offers.any fun r => r.id = row.id then throw (.primaryKey "offers.id")
  else return { db with offers := db.offers ++ [row] }

/-- `INSERT INTO ice_candidates` -/
def insertIceCandidate (db : Database) (sessionId candidate : String) (createdAt : ℤ) :
    Except StoreError Database := do
  db.writable db.hasSchema "ice_candidates"
  let id := db.lastIceCandidate + 1
  return { db with
    iceCandidates := db.iceCandidates ++ [{ id, sessionId, candidate, createdAt }]
    lastIceCandidate := id }

/-- `INSERT INTO push_tokens` -/
def insertPushToken (db : Database) (row : PushTokenRow) : Except StoreError Database := do
  db.writable db.hasSchema "push_tokens"
  if db.pushTokens.any fun r => r.devicePub = row.devicePub then
    throw (.primaryKey "push_tokens.device_pub")
  else return { db with pushTokens := db.pushTokens ++ [row] }

/-- `INSERT INTO rebind_audit` -/
def insertRebindAudit (db : Database) (row : RebindAuditRow) : Except StoreError Database := do
  db.writable db.hasSchema "rebind_audit"
  return { db with rebindAudit := db.rebindAudit ++ [row] }

/-- The first statement of `PurgeExpired`. -/
def purgeOffers (db : Database) (now : ℤ) : Except StoreError Database := do
  db.writable db.hasSchema "offers"
  return { db with offers := db.offers.filter fun r => ¬ r.expiresAt ≤ unix now }

/-- The second statement of `PurgeExpired`. -/
def purgePushTokens (db : Database) (now : ℤ) : Except StoreError Database := do
  db.writable db.hasSchema "push_tokens"
  let cutoff := unix (now - 30 * 24 * 3600 * second)
  return { db with pushTokens := db.pushTokens.filter fun r => ¬ r.lastSeenTs ≤ cutoff }

/-- The third statement of `PurgeExpired`. -/
def purgeRebindAudit (db : Database) (now : ℤ) : Except StoreError Database := do
  db.writable db.hasSchema "rebind_audit"
  let cutoff := unix (now - 90 * 24 * 3600 * second)
  return { db with rebindAudit := db.rebindAudit.filter fun r => ¬ r.eventTs ≤ cutoff }

/-! ## The package `dsar` -/

/-- A statement whose error the package wraps. -/
def wrapped (text : String) (result : Except StoreError Database) : Except DsarError Database :=
  result.mapError (.wraps text)

def migrate (db : Database) : Except DsarError Database :=
  wrapped "dsar.Migrate" do
    db.writable true ""
    return { db with hasDsar := true }

def upsertAccount (time : Rfc3339) (db : Database) (pubkey pushTokenHash : String) (lastSeen : ℤ) :
    Except DsarError Database :=
  wrapped "dsar.UpsertAccount" do
    db.writable db.hasDsar "dsar_accounts"
    let row : DsarAccountRow := { pubkey, pushTokenHash, lastSeen := time.format lastSeen }
    if db.dsarAccounts.any fun r => r.pubkey = pubkey then
      return { db with
        dsarAccounts := db.dsarAccounts.map fun r => if r.pubkey = pubkey then row else r }
    else return { db with dsarAccounts := db.dsarAccounts ++ [row] }

def addAuditRow (time : Rfc3339) (db : Database) (pubkey eventType : String) (occurredAt : ℤ) :
    Except DsarError Database :=
  wrapped "dsar.AddAuditRow" do
    db.writable db.hasDsar "dsar_audit"
    let id := db.lastAudit + 1
    if db.foreignKeys && !db.dsarAccounts.any fun r => r.pubkey = pubkey then throw .foreignKey
    else return { db with
      dsarAudit := db.dsarAudit ++ [{ id, pubkey, eventType, occurredAt := time.format occurredAt }]
      lastAudit := id }

/-- `DeleteForKey`: the audit rows go with a row that is deleted, if foreign keys are enforced. -/
def deleteForKey (db : Database) (pubkey : String) : Except DsarError Database :=
  wrapped "dsar.DeleteForKey" do
    db.writable db.hasDsar "dsar_accounts"
    let cascades := db.foreignKeys && db.dsarAccounts.any fun r => r.pubkey = pubkey
    return { db with
      dsarAccounts := db.dsarAccounts.filter fun r => r.pubkey ≠ pubkey
      dsarAudit := if cascades then db.dsarAudit.filter fun r => r.pubkey ≠ pubkey
        else db.dsarAudit }

/-- `PruneOldAuditRows` at a moment. -/
def pruneOldAuditRows (time : Rfc3339) (db : Database) (now retentionPeriod : ℤ) :
    Except DsarError Database :=
  wrapped "dsar.PruneOldAuditRows" do
    db.writable db.hasDsar "dsar_audit"
    let cutoff := time.format (now - retentionPeriod)
    return { db with dsarAudit := db.dsarAudit.filter fun r => ¬ r.occurredAt < cutoff }

end Database

structure DeletionRequest where
  accountPubkey : String
  signature : List UInt8
  timestamp : String
deriving DecidableEq, Repr

def parseTimestamp (time : Rfc3339) (s : String) : Except String ℤ :=
  if s = "" then .error "empty timestamp" else time.parse s

namespace Database

def handleDeletionRequest (time : Rfc3339) (db : Database) (req : DeletionRequest) :
    Except DsarError Database :=
  if req.accountPubkey = "" then .error (.plain "dsar.HandleDeletionRequest: empty AccountPubkey")
  else if req.signature = [] then .error (.plain "dsar.HandleDeletionRequest: missing Signature")
  else
    match parseTimestamp time req.timestamp with
    | .error e => .error (.timestamp "dsar.HandleDeletionRequest: bad Timestamp" e)
    | .ok _ => db.deleteForKey req.accountPubkey

end Database

/-! ## Runs -/

/-- The calls; each is one statement. -/
inductive DatabaseCall where
  | setReadOnly (readOnly : Bool)
  | initSchema
  | insertAccount (row : AccountRow)
  | insertOffer (row : OfferRow)
  | insertIceCandidate (sessionId candidate : String) (createdAt : ℤ)
  | insertPushToken (row : PushTokenRow)
  | insertRebindAudit (row : RebindAuditRow)
  | purgeOffers (now : ℤ)
  | purgePushTokens (now : ℤ)
  | purgeRebindAudit (now : ℤ)
  | migrate
  | upsertAccount (pubkey pushTokenHash : String) (lastSeen : ℤ)
  | addAuditRow (pubkey eventType : String) (occurredAt : ℤ)
  | handleDeletionRequest (req : DeletionRequest)
  | pruneOldAuditRows (now retentionPeriod : ℤ)

namespace Database

/-- A call that fails changes nothing. -/
def orSelf {ε : Type} (db : Database) (result : Except ε Database) : Database :=
  match result with
  | .ok db' => db'
  | .error _ => db

def step (time : Rfc3339) (db : Database) : DatabaseCall → Database
  | .setReadOnly readOnly => { db with readOnly }
  | .initSchema => db.initSchema
  | .insertAccount row => db.orSelf (db.insertAccount row)
  | .insertOffer row => db.orSelf (db.insertOffer row)
  | .insertIceCandidate sessionId candidate createdAt =>
    db.orSelf (db.insertIceCandidate sessionId candidate createdAt)
  | .insertPushToken row => db.orSelf (db.insertPushToken row)
  | .insertRebindAudit row => db.orSelf (db.insertRebindAudit row)
  | .purgeOffers now => db.orSelf (db.purgeOffers now)
  | .purgePushTokens now => db.orSelf (db.purgePushTokens now)
  | .purgeRebindAudit now => db.orSelf (db.purgeRebindAudit now)
  | .migrate => db.orSelf db.migrate
  | .upsertAccount pubkey pushTokenHash lastSeen =>
    db.orSelf (db.upsertAccount time pubkey pushTokenHash lastSeen)
  | .addAuditRow pubkey eventType occurredAt =>
    db.orSelf (db.addAuditRow time pubkey eventType occurredAt)
  | .handleDeletionRequest req => db.orSelf (db.handleDeletionRequest time req)
  | .pruneOldAuditRows now retentionPeriod =>
    db.orSelf (db.pruneOldAuditRows time now retentionPeriod)

/-- The databases after the runs from an empty one. -/
def Reachable (time : Rfc3339) (db : Database) : Prop :=
  ∃ (foreignKeys : Bool) (calls : List DatabaseCall),
    db = calls.foldl (step time) (opened foreignKeys)

/-! ## What a successful statement does -/

variable {time : Rfc3339} {db db' : Database} {pubkey : String}

theorem ok_of_writable {present : Bool} {name : String} {result : Except StoreError Database}
    (h : (db.writable present name >>= fun _ => result) = .ok db') : result = .ok db' := by
  obtain ⟨_, -, hresult⟩ := Outcome.bind_eq_ok.mp h
  exact hresult

theorem ok_of_wrapped {text : String} {result : Except StoreError Database}
    (h : wrapped text result = .ok db') : result = .ok db' := by
  cases result with
  | ok db => exact congrArg _ (Except.ok.inj h)
  | error e => cases h

theorem deleteForKey_ok (h : db.deleteForKey pubkey = .ok db') :
    db' = { db with
      dsarAccounts := db.dsarAccounts.filter fun r => r.pubkey ≠ pubkey
      dsarAudit := if db.foreignKeys && db.dsarAccounts.any fun r => r.pubkey = pubkey then
        db.dsarAudit.filter fun r => r.pubkey ≠ pubkey else db.dsarAudit } :=
  (Except.ok.inj (ok_of_writable (ok_of_wrapped h))).symm

theorem handleDeletionRequest_ok {req : DeletionRequest}
    (h : db.handleDeletionRequest time req = .ok db') :
    db.deleteForKey req.accountPubkey = .ok db' := by
  unfold handleDeletionRequest at h
  split_ifs at h
  cases hparse : parseTimestamp time req.timestamp with
  | error e =>
    rw [hparse] at h
    cases h
  | ok t =>
    rw [hparse] at h
    exact h

theorem upsertAccount_ok {pushTokenHash : String} {lastSeen : ℤ}
    (h : db.upsertAccount time pubkey pushTokenHash lastSeen = .ok db') :
    db'.foreignKeys = db.foreignKeys ∧ db'.dsarAudit = db.dsarAudit ∧
      ∀ a ∈ db.dsarAccounts, ∃ a' ∈ db'.dsarAccounts, a'.pubkey = a.pubkey := by
  have hok := ok_of_writable (ok_of_wrapped h)
  dsimp only at hok
  split at hok
  · obtain rfl := Except.ok.inj hok
    refine ⟨rfl, rfl, fun a ha => ⟨_, List.mem_map_of_mem ha, ?_⟩⟩
    split
    · rename_i hkey
      exact hkey.symm
    · rfl
  · obtain rfl := Except.ok.inj hok
    exact ⟨rfl, rfl, fun a ha => ⟨a, List.mem_append_left _ ha, rfl⟩⟩

theorem addAuditRow_ok {eventType : String} {occurredAt : ℤ}
    (h : db.addAuditRow time pubkey eventType occurredAt = .ok db') :
    db'.foreignKeys = db.foreignKeys ∧ db'.dsarAccounts = db.dsarAccounts ∧
      (∀ r ∈ db'.dsarAudit, r ∈ db.dsarAudit ∨ r.pubkey = pubkey) ∧
      (db.foreignKeys = true → ∃ a ∈ db.dsarAccounts, a.pubkey = pubkey) := by
  have hok := ok_of_writable (ok_of_wrapped h)
  dsimp only at hok
  split at hok
  · cases hok
  · rename_i hparent
    obtain rfl := Except.ok.inj hok
    refine ⟨rfl, rfl, fun r hr => ?_, fun hfk => ?_⟩
    · rcases List.mem_append.mp hr with hold | hnew
      · exact .inl hold
      · rw [List.mem_singleton.mp hnew]
        exact .inr rfl
    · simpa [hfk] using hparent

/-! ## Foreign keys -/

/-- An audit row belongs to an account, if foreign keys are enforced. -/
def Integrity (db : Database) : Prop :=
  db.foreignKeys = true → ∀ r ∈ db.dsarAudit, ∃ a ∈ db.dsarAccounts, a.pubkey = r.pubkey

/-- The two tables of the package are the same. -/
structure SameDsar (db db' : Database) : Prop where
  foreignKeys : db'.foreignKeys = db.foreignKeys
  dsarAccounts : db'.dsarAccounts = db.dsarAccounts
  dsarAudit : db'.dsarAudit = db.dsarAudit

theorem Integrity.congr (h : db.Integrity) (hsame : SameDsar db db') : db'.Integrity := by
  unfold Integrity
  rw [hsame.foreignKeys, hsame.dsarAccounts, hsame.dsarAudit]
  exact h

theorem Integrity.orSelf {ε : Type} {result : Except ε Database} (h : db.Integrity)
    (hok : ∀ db', result = .ok db' → db'.Integrity) : (db.orSelf result).Integrity := by
  cases result with
  | ok db' => exact hok db' rfl
  | error e => exact h

theorem Integrity.deleteForKey (h : db.Integrity) (hok : db.deleteForKey pubkey = .ok db') :
    db'.Integrity := by
  rw [deleteForKey_ok hok]
  intro hfk r hr
  obtain ⟨a, ha, hkey⟩ : ∃ a ∈ db.dsarAccounts, a.pubkey = r.pubkey := by
    refine h hfk r ?_
    dsimp only at hr
    split at hr
    · exact List.mem_of_mem_filter hr
    · exact hr
  refine ⟨a, List.mem_filter.mpr ⟨ha, ?_⟩, hkey⟩
  rw [decide_eq_true_eq]
  -- if the row's account were deleted, the row would be too
  intro hdel
  have hany : (db.dsarAccounts.any fun r => r.pubkey = pubkey) = true :=
    List.any_eq_true.mpr ⟨a, ha, by simpa using hdel⟩
  dsimp only at hr hfk
  rw [hfk, hany] at hr
  have hne := (List.mem_filter.mp hr).2
  rw [decide_eq_true_eq] at hne
  exact hne (hkey.symm.trans hdel)

section

variable {present : Bool} {name : String}

/-- A statement on one of the other tables. -/
theorem Integrity.of_writable (h : db.Integrity) (hsame : SameDsar db db') :
    (db.orSelf (db.writable present name >>= fun _ => .ok db')).Integrity := by
  refine h.orSelf fun _ hok => h.congr ?_
  obtain rfl := Except.ok.inj (ok_of_writable hok)
  exact hsame

theorem Integrity.of_writable_ite {p : Prop} [Decidable p] {e : StoreError} (h : db.Integrity)
    (hsame : SameDsar db db') :
    (db.orSelf (db.writable present name >>= fun _ =>
      if p then .error e else .ok db')).Integrity := by
  refine h.orSelf fun _ hok => h.congr ?_
  have hok := ok_of_writable hok
  split at hok
  · cases hok
  · obtain rfl := Except.ok.inj hok
    exact hsame

end

theorem Integrity.step (h : db.Integrity) (call : DatabaseCall) : (db.step time call).Integrity := by
  cases call with
  | setReadOnly readOnly => exact h.congr ⟨rfl, rfl, rfl⟩
  | initSchema => exact h.congr ⟨rfl, rfl, rfl⟩
  | insertAccount row => exact h.of_writable_ite ⟨rfl, rfl, rfl⟩
  | insertOffer row => exact h.of_writable_ite ⟨rfl, rfl, rfl⟩
  | insertIceCandidate sessionId candidate createdAt => exact h.of_writable ⟨rfl, rfl, rfl⟩
  | insertPushToken row => exact h.of_writable_ite ⟨rfl, rfl, rfl⟩
  | insertRebindAudit row => exact h.of_writable ⟨rfl, rfl, rfl⟩
  | purgeOffers now => exact h.of_writable ⟨rfl, rfl, rfl⟩
  | purgePushTokens now => exact h.of_writable ⟨rfl, rfl, rfl⟩
  | purgeRebindAudit now => exact h.of_writable ⟨rfl, rfl, rfl⟩
  | migrate =>
    refine h.orSelf fun db' hok => h.congr ?_
    obtain rfl := Except.ok.inj (ok_of_writable (ok_of_wrapped hok))
    exact ⟨rfl, rfl, rfl⟩
  | upsertAccount pubkey pushTokenHash lastSeen =>
    refine h.orSelf fun db' hok hfk r hr => ?_
    obtain ⟨hfk', haudit, hkept⟩ := upsertAccount_ok hok
    rw [haudit] at hr
    obtain ⟨a, ha, hkey⟩ := h (hfk' ▸ hfk) r hr
    obtain ⟨a', ha', hkey'⟩ := hkept a ha
    exact ⟨a', ha', hkey'.trans hkey⟩
  | addAuditRow pubkey eventType occurredAt =>
    refine h.orSelf fun db' hok hfk r hr => ?_
    obtain ⟨hfk', haccounts, hrows, hparent⟩ := addAuditRow_ok hok
    rw [haccounts]
    rcases hrows r hr with hold | hnew
    · exact h (hfk' ▸ hfk) r hold
    · rw [hnew]
      exact hparent (hfk' ▸ hfk)
  | handleDeletionRequest req =>
    exact h.orSelf fun db' hok => h.deleteForKey (handleDeletionRequest_ok hok)
  | pruneOldAuditRows now retentionPeriod =>
    refine h.orSelf fun db' hok hfk r hr => ?_
    obtain rfl := Except.ok.inj (ok_of_writable (ok_of_wrapped hok))
    exact h hfk r (List.mem_of_mem_filter hr)

theorem Reachable.integrity (h : db.Reachable time) : db.Integrity := by
  obtain ⟨foreignKeys, calls, rfl⟩ := h
  apply Machine.foldl_invariant
  · exact fun db call hdb => hdb.step call
  · exact fun _ r hr => absurd hr List.not_mem_nil

/-! ## Erasure -/

/-- A row of any of the tables. -/
inductive Row where
  | account (r : AccountRow)
  | offer (r : OfferRow)
  | iceCandidate (r : IceCandidateRow)
  | pushToken (r : PushTokenRow)
  | rebindAudit (r : RebindAuditRow)
  | dsarAccount (r : DsarAccountRow)
  | dsarAudit (r : DsarAuditRow)
deriving DecidableEq, Repr

/-- The rows of the tables of the store. -/
def storeRows (db : Database) : List Row :=
  db.accounts.map .account ++ db.offers.map .offer ++ db.iceCandidates.map .iceCandidate ++
    db.pushTokens.map .pushToken ++ db.rebindAudit.map .rebindAudit

def rows (db : Database) : List Row :=
  db.storeRows ++ db.dsarAccounts.map .dsarAccount ++ db.dsarAudit.map .dsarAudit

/-- The row is about the account: it names its key, or the session of one of its offers, or one of
its devices. -/
def Refers (db : Database) (k : String) : Row → Prop
  | .account r => r.accountPub = k ∨ r.devicePub = k
  | .offer r => r.senderPub = k ∨ r.recipientPub = k
  | .iceCandidate r => r.sessionId = k ∨
    ∃ o ∈ db.offers, (o.senderPub = k ∨ o.recipientPub = k) ∧ o.id = r.sessionId
  | .pushToken r => r.devicePub = k ∨ ∃ a ∈ db.accounts, a.accountPub = k ∧ a.devicePub = r.devicePub
  | .rebindAudit r => r.accountPub = k
  | .dsarAccount r => r.pubkey = k
  | .dsarAudit r => r.pubkey = k

instance (db : Database) (k : String) : DecidablePred (db.Refers k)
  | .account _ => inferInstanceAs (Decidable (_ ∨ _))
  | .offer _ => inferInstanceAs (Decidable (_ ∨ _))
  | .iceCandidate _ => inferInstanceAs (Decidable (_ ∨ _))
  | .pushToken _ => inferInstanceAs (Decidable (_ ∨ _))
  | .rebindAudit _ => inferInstanceAs (Decidable (_ = _))
  | .dsarAccount _ => inferInstanceAs (Decidable (_ = _))
  | .dsarAudit _ => inferInstanceAs (Decidable (_ = _))

theorem refers_dsarAccount {r : DsarAccountRow} :
    db.Refers pubkey (.dsarAccount r) ↔ r.pubkey = pubkey := Iff.rfl

theorem refers_dsarAudit {r : DsarAuditRow} :
    db.Refers pubkey (.dsarAudit r) ↔ r.pubkey = pubkey := Iff.rfl

/-- No row is left that was about the account before, and the others are unchanged. -/
def Erased (db db' : Database) (k : String) : Prop :=
  (∀ row ∈ db'.rows, ¬ db.Refers k row) ∧
    (db'.rows.filter fun row => ¬ db.Refers k row) = db.rows.filter fun row => ¬ db.Refers k row

theorem dsarAudit_deleteForKey (hint : db.Integrity) (hfk : db.foreignKeys = true)
    (h : db.deleteForKey pubkey = .ok db') :
    db'.dsarAudit = db.dsarAudit.filter fun r => r.pubkey ≠ pubkey := by
  rw [deleteForKey_ok h]
  dsimp only
  split
  · rfl
  · -- the account had no row, so it has no audit row either
    rename_i hnone
    rw [hfk, Bool.true_and] at hnone
    rw [eq_comm, List.filter_eq_self]
    intro r hr
    obtain ⟨a, ha, hkey⟩ := hint hfk r hr
    rw [decide_eq_true_eq]
    intro heq
    exact hnone (List.any_eq_true.mpr ⟨a, ha, by simpa using hkey.trans heq⟩)

theorem others_deleteForKey (h : db.deleteForKey pubkey = .ok db') :
    (db'.rows.filter fun row => ¬ db.Refers pubkey row) =
      db.rows.filter fun row => ¬ db.Refers pubkey row := by
  have hstore : db'.storeRows = db.storeRows := by
    rw [deleteForKey_ok h]
    rfl
  have haccounts : ((db'.dsarAccounts.map Row.dsarAccount).filter fun row =>
      ¬ db.Refers pubkey row) = (db.dsarAccounts.map Row.dsarAccount).filter fun row =>
        ¬ db.Refers pubkey row := by
    rw [deleteForKey_ok h, List.filter_map, List.filter_map, List.filter_filter]
    congr 1
    refine List.filter_congr fun r _ => ?_
    simp only [Function.comp, refers_dsarAccount, ne_eq, Bool.and_self]
  have haudit : ((db'.dsarAudit.map Row.dsarAudit).filter fun row => ¬ db.Refers pubkey row) =
      (db.dsarAudit.map Row.dsarAudit).filter fun row => ¬ db.Refers pubkey row := by
    rw [deleteForKey_ok h]
    dsimp only
    split
    · rw [List.filter_map, List.filter_map, List.filter_filter]
      congr 1
      refine List.filter_congr fun r _ => ?_
      simp only [Function.comp, refers_dsarAudit, ne_eq, Bool.and_self]
    · rfl
  unfold rows
  rw [List.filter_append, List.filter_append, List.filter_append, List.filter_append, hstore,
    haccounts, haudit]

/-- After a deletion request that succeeds, nothing in the database refers to the account and the
rows of others are unchanged, exactly if no row of the store's tables referred to it and foreign
keys are enforced or it had no audit row. -/
theorem erasure_iff (time : Rfc3339) (db db' : Database) (hreach : db.Reachable time)
    (req : DeletionRequest) (hok : db.handleDeletionRequest time req = .ok db') :
    Erased db db' req.accountPubkey ↔
      (∀ row ∈ db.storeRows, ¬ db.Refers req.accountPubkey row) ∧
      (db.foreignKeys = true ∨ ∀ r ∈ db.dsarAudit, r.pubkey ≠ req.accountPubkey) := by
  have hdel := handleDeletionRequest_ok hok
  have hdb := deleteForKey_ok hdel
  have hstore : db'.storeRows = db.storeRows := by
    rw [hdb]
    rfl
  unfold Erased
  rw [and_iff_left (others_deleteForKey hdel)]
  constructor
  · intro hgone
    refine ⟨fun row hrow => hgone row ?_, ?_⟩
    · unfold rows
      rw [hstore]
      exact List.mem_append_left _ (List.mem_append_left _ hrow)
    · by_contra hno
      push Not at hno
      obtain ⟨hfk, r, hr, hkey⟩ := hno
      have hkept : db'.dsarAudit = db.dsarAudit := by
        rw [hdb, Bool.eq_false_iff.mpr hfk]
        rfl
      refine hgone (.dsarAudit r) (List.mem_append_right _ ?_) hkey
      rw [hkept]
      exact List.mem_map_of_mem hr
  · rintro ⟨hnone, haudit⟩ row hrow
    rcases List.mem_append.mp hrow with hrow | hrow
    · rcases List.mem_append.mp hrow with hrow | hrow
      · exact hnone row (hstore ▸ hrow)
      · obtain ⟨a, ha, rfl⟩ := List.mem_map.mp hrow
        rw [hdb] at ha
        exact of_decide_eq_true (List.mem_filter.mp ha).2
    · obtain ⟨r, hr, rfl⟩ := List.mem_map.mp hrow
      by_cases hfk : db.foreignKeys = true
      · rw [dsarAudit_deleteForKey hreach.integrity hfk hdel] at hr
        exact of_decide_eq_true (List.mem_filter.mp hr).2
      · have hkept : db'.dsarAudit = db.dsarAudit := by
          rw [hdb, Bool.eq_false_iff.mpr hfk]
          rfl
        rw [hkept] at hr
        exact haudit.resolve_left hfk r hr

/-- A clock whose texts are all the same. -/
def frozenTime : Rfc3339 where
  parse := fun _ => .ok 0
  format := fun _ => "1970-01-01T00:00:00Z"

/-- The calls that make an account known to the package. -/
def knownAccount : List DatabaseCall :=
  [.initSchema, .migrate, .upsertAccount "alice" "" 0, .addAuditRow "alice" "game_started" 0]

def aliceRequest : DeletionRequest where
  accountPubkey := "alice"
  signature := [1]
  timestamp := "1970-01-01T00:00:00Z"

/-- With foreign keys, an account of which only the package knows is erased. -/
theorem erasure_known_account :
    ∃ db db', db.Reachable frozenTime ∧ db.dsarAudit.length = 1 ∧
      db.handleDeletionRequest frozenTime aliceRequest = .ok db' ∧ Erased db db' "alice" := by
  refine ⟨knownAccount.foldl (step frozenTime) (opened true), _, ⟨true, knownAccount, rfl⟩,
    by decide +kernel, rfl, ?_⟩
  apply (erasure_iff frozenTime _ _ ⟨true, knownAccount, rfl⟩ aliceRequest rfl).mpr
  decide +kernel

/-- The row of `accounts` survives the request, and without foreign keys so does the audit row. -/
theorem erasure_leaves_rows :
    let row : AccountRow := { accountPub := "alice", devicePub := "phone", lastSeenTs := 0 }
    let calls := knownAccount ++ [.insertAccount row]
    let left := fun foreignKeys =>
      ((calls.foldl (step frozenTime) (opened foreignKeys)).handleDeletionRequest frozenTime
        aliceRequest).toOption.map fun db =>
          (db.accounts.map AccountRow.accountPub, db.dsarAudit.map DsarAuditRow.pubkey)
    left true = some (["alice"], []) ∧ left false = some (["alice"], ["alice"]) := by
  decide +kernel

end Database

end ChessRecast.Signaling
