import ChessRecast.Lib.Machine
import Mathlib.Data.List.Sort

/-!
# The list of saved games and its cache (`saved_games_local.dart`)

`saveGame`, `deleteGame` and `deleteAll` empty the cache and then issue their statement; `listGames`
returns the cache, or issues a query and fills the cache when it resumes. The database executes the
statements in the order in which they were issued, and a call resumes at any later moment.

A call that reads the table before a write and resumes after the write has emptied the cache leaves
an old list in it. So a list reflects the writes that were complete when it was asked for exactly if
its query was issued after they had started, which is so whenever no write starts while a query is on
its way (`list_reflects_iff`).
-/

namespace ChessRecast.App

/-- A row of the table `games`. -/
structure GameRow where
  id : String
  timestamp : String
  payload : String
deriving DecidableEq, Repr

/-- The fields of a `SavedGame` that `listGames` fills. -/
structure GameSummary where
  id : String
  timestamp : ℤ
  gameType : String
  whiteLevel : String
  blackLevel : String
  result : String
  resultReason : String
  totalMoves : ℤ
  startingFEN : Option String
  finalFEN : Option String
deriving DecidableEq, Repr

/-- The statements that change the table. -/
inductive GameWrite where
  | saveGame (row : GameRow)
  | deleteGame (id : String)
  | deleteAll
deriving DecidableEq, Repr

/-- The table after a statement; `ConflictAlgorithm.replace` removes the row with the same id. -/
def GameWrite.apply (rows : List GameRow) : GameWrite → List GameRow
  | .saveGame row => rows.filter (fun r => r.id ≠ row.id) ++ [row]
  | .deleteGame id => rows.filter fun r => r.id ≠ id
  | .deleteAll => []

def tableAfter (log : List GameWrite) : List GameRow := log.foldl GameWrite.apply []

/-- `_fetchListGames`: the rows from the newest to the oldest, malformed ones dropped. How SQLite and
Dart read a row is a parameter. -/
def fetchListGames (decode : GameRow → Option GameSummary) (rows : List GameRow) :
    List GameSummary :=
  (rows.insertionSort fun a b => b.timestamp ≤ a.timestamp).filterMap decode

/-- What a query has read, with the number of writes that had been started when it was issued and
the number of those that had been executed when it was. -/
structure FetchedGames where
  games : List GameSummary
  asked : ℕ
  version : ℕ
deriving DecidableEq, Repr

/-- A statement that has been issued. The writes are numbered from one; a query carries the numbers
of the writes that were complete when it was asked for. -/
inductive IssuedStatement where
  | write (number : ℕ) (write : GameWrite)
  | query (asked : ℕ) (completed : List ℕ)
deriving DecidableEq, Repr

/-- A statement that has been executed, and whose call has not resumed. -/
inductive ExecutedStatement where
  | write (number : ℕ)
  | query (completed : List ℕ) (fetched : FetchedGames)
deriving DecidableEq, Repr

/-- A call of `listGames` that has returned, with the numbers of the writes that were complete when
it started. -/
structure ListAnswer where
  completed : List ℕ
  fetched : FetchedGames
deriving DecidableEq, Repr

/-- `SavedGamesLocal` and its database; `log` holds the writes that have been executed. -/
structure SavedGamesLocal where
  listCache : Option FetchedGames := none
  rows : List GameRow := []
  issued : List IssuedStatement := []
  executed : List ExecutedStatement := []
  started : ℕ := 0
  log : List GameWrite := []
  completed : List ℕ := []
  answers : List ListAnswer := []
deriving DecidableEq, Repr

/-- A call starts, the database executes the next statement, or a call whose statement has been
executed resumes. -/
inductive SavedGamesEvent where
  | write (write : GameWrite)
  | listGames
  | execute
  | resume (i : ℕ)
deriving DecidableEq, Repr

namespace SavedGamesLocal

/-- `saveGame`, `deleteGame` and `deleteAll` up to their `await`. -/
def startWrite (s : SavedGamesLocal) (write : GameWrite) : SavedGamesLocal :=
  { s with
    listCache := none
    started := s.started + 1
    issued := s.issued ++ [.write (s.started + 1) write] }

/-- `listGames` up to its `await`. -/
def startList (s : SavedGamesLocal) : SavedGamesLocal :=
  match s.listCache with
  | some fetched => { s with answers := s.answers ++ [⟨s.completed, fetched⟩] }
  | none => { s with issued := s.issued ++ [.query s.started s.completed] }

/-- The database executes a statement. -/
def execute (decode : GameRow → Option GameSummary) (s : SavedGamesLocal) :
    IssuedStatement → SavedGamesLocal
  | .write number write =>
    { s with
      rows := write.apply s.rows
      log := s.log ++ [write]
      executed := s.executed ++ [.write number] }
  | .query asked completed =>
    let games := fetchListGames decode s.rows
    { s with executed := s.executed ++ [.query completed ⟨games, asked, s.log.length⟩] }

/-- A call goes on after its `await`. -/
def resume (s : SavedGamesLocal) : ExecutedStatement → SavedGamesLocal
  | .write number => { s with completed := s.completed ++ [number] }
  | .query completed fetched =>
    { s with listCache := some fetched, answers := s.answers ++ [⟨completed, fetched⟩] }

/-- Executing nothing and resuming a call that there is not change nothing. -/
def step (decode : GameRow → Option GameSummary) (s : SavedGamesLocal) :
    SavedGamesEvent → SavedGamesLocal
  | .write write => s.startWrite write
  | .listGames => s.startList
  | .execute =>
    match s.issued with
    | [] => s
    | statement :: issued => { s with issued }.execute decode statement
  | .resume i =>
    match s.executed[i]? with
    | none => s
    | some statement => { s with executed := s.executed.eraseIdx i }.resume statement

/-! ## The order of the statements -/

/-- The statements follow one another from a version of the table to the last write started: writes
have consecutive numbers, and a query was asked for at the version that it will read. -/
def InOrder : ℕ → List IssuedStatement → ℕ → Prop
  | version, [], started => version = started
  | version, .write number _ :: issued, started =>
    number = version + 1 ∧ InOrder (version + 1) issued started
  | version, .query asked _ :: issued, started => asked = version ∧ InOrder version issued started

theorem InOrder.concat {version started started' : ℕ} {issued : List IssuedStatement}
    {statement : IssuedStatement} (h : InOrder version issued started)
    (hlast : InOrder started [statement] started') :
    InOrder version (issued ++ [statement]) started' := by
  induction issued generalizing version with
  | nil =>
    obtain rfl : version = started := h
    exact hlast
  | cons statement issued ih =>
    cases statement with
    | write number write => exact ⟨h.1, ih h.2⟩
    | query asked completed => exact ⟨h.1, ih h.2⟩

/-! ## What a list shows -/

section

variable {decode : GameRow → Option GameSummary} {s t : SavedGamesLocal} {log : List GameWrite}
  {fetched : FetchedGames} {e : SavedGamesEvent}

/-- The list shows the table at its version, which is the one that was asked for. -/
structure Shows (decode : GameRow → Option GameSummary) (log : List GameWrite)
    (fetched : FetchedGames) : Prop where
  asked : fetched.asked = fetched.version
  version : fetched.version ≤ log.length
  games : fetched.games = fetchListGames decode (tableAfter (log.take fetched.version))

theorem Shows.concat (h : Shows decode log fetched) (w : GameWrite) :
    Shows decode (log ++ [w]) fetched := by
  have hversion := h.version
  refine ⟨h.asked, ?_, ?_⟩
  · rw [List.length_append, List.length_singleton]
    omega
  · rw [List.take_append_of_le_length hversion]
    exact h.games

/-- Every list that is held anywhere shows the table at the version that was asked for. -/
structure Inv (decode : GameRow → Option GameSummary) (s : SavedGamesLocal) : Prop where
  rows : s.rows = tableAfter s.log
  order : InOrder s.log.length s.issued s.started
  cache : ∀ fetched, s.listCache = some fetched → Shows decode s.log fetched
  executed : ∀ completed fetched, .query completed fetched ∈ s.executed →
    Shows decode s.log fetched
  answers : ∀ answer ∈ s.answers, Shows decode s.log answer.fetched

theorem inv_new (decode : GameRow → Option GameSummary) : Inv decode {} where
  rows := rfl
  order := rfl
  cache := nofun
  executed := fun _ _ h => absurd h List.not_mem_nil
  answers := fun _ h => absurd h List.not_mem_nil

theorem Inv.startList (h : s.Inv decode) : s.startList.Inv decode := by
  unfold SavedGamesLocal.startList
  split
  · rename_i fetched hcache
    refine ⟨h.rows, h.order, h.cache, h.executed, List.forall_mem_append.mpr ⟨h.answers, ?_⟩⟩
    exact List.forall_mem_singleton.mpr (h.cache fetched hcache)
  · exact ⟨h.rows, h.order.concat ⟨rfl, rfl⟩, h.cache, h.executed, h.answers⟩

theorem Inv.execute (h : s.Inv decode) {statement : IssuedStatement}
    {issued : List IssuedStatement} (hissued : s.issued = statement :: issued) :
    ({ s with issued }.execute decode statement).Inv decode := by
  have horder := h.order
  rw [hissued] at horder
  cases statement with
  | write number write =>
    refine ⟨?_, ?_, fun f hf => (h.cache f hf).concat write, fun completed f hmem => ?_,
      fun answer hmem => (h.answers answer hmem).concat write⟩
    · show write.apply s.rows = tableAfter (s.log ++ [write])
      rw [h.rows, tableAfter, tableAfter, List.foldl_append]
      rfl
    · show InOrder (s.log ++ [write]).length issued s.started
      rw [List.length_append]
      exact horder.2
    · rcases List.mem_append.mp hmem with hold | hnew
      · exact (h.executed completed f hold).concat write
      · cases List.mem_singleton.mp hnew
  | query asked completed =>
    refine ⟨h.rows, horder.2, h.cache, fun completed' f hmem => ?_, h.answers⟩
    rcases List.mem_append.mp hmem with hold | hnew
    · exact h.executed completed' f hold
    · cases List.mem_singleton.mp hnew
      refine ⟨horder.1, le_rfl, ?_⟩
      show fetchListGames decode s.rows = fetchListGames decode (tableAfter (s.log.take s.log.length))
      rw [h.rows, List.take_length]

theorem Inv.resume (h : s.Inv decode) {i : ℕ} {statement : ExecutedStatement}
    (hi : s.executed[i]? = some statement) :
    ({ s with executed := s.executed.eraseIdx i }.resume statement).Inv decode := by
  have hrest : ∀ completed fetched, .query completed fetched ∈ s.executed.eraseIdx i →
      Shows decode s.log fetched :=
    fun completed fetched hmem => h.executed completed fetched (List.mem_of_mem_eraseIdx hmem)
  cases statement with
  | write number => exact ⟨h.rows, h.order, h.cache, hrest, h.answers⟩
  | query completed fetched =>
    have hshows := h.executed completed fetched (List.mem_of_getElem? hi)
    refine ⟨h.rows, h.order, fun f hf => ?_, hrest, List.forall_mem_append.mpr ⟨h.answers, ?_⟩⟩
    · obtain rfl := Option.some.inj hf
      exact hshows
    · exact List.forall_mem_singleton.mpr hshows

theorem Inv.step (h : s.Inv decode) (e : SavedGamesEvent) : (s.step decode e).Inv decode := by
  cases e with
  | write write => exact ⟨h.rows, h.order.concat ⟨rfl, rfl⟩, nofun, h.executed, h.answers⟩
  | listGames => exact h.startList
  | execute =>
    simp only [SavedGamesLocal.step]
    split
    · exact h
    · rename_i hissued
      exact h.execute hissued
  | resume i =>
    simp only [SavedGamesLocal.step]
    split
    · exact h
    · rename_i hi
      exact h.resume hi

/-- The list shows the table after the writes up to one that is not before any of those that were
complete when the call started. -/
def Reflects (decode : GameRow → Option GameSummary) (log : List GameWrite) (answer : ListAnswer) :
    Prop :=
  answer.fetched.games = fetchListGames decode (tableAfter (log.take answer.fetched.version)) ∧
    ∀ number ∈ answer.completed, number ≤ answer.fetched.version

/-- The query behind the list was issued after the writes that were complete when the call started
had been started. -/
def AskedInTime (answer : ListAnswer) : Prop :=
  ∀ number ∈ answer.completed, number ≤ answer.fetched.asked

/-! ## Runs in which no write overtakes a query -/

/-- No write starts while a query has been issued and its call has not resumed. -/
def Quiet (s : SavedGamesLocal) : SavedGamesEvent → Prop
  | .write _ => (∀ asked completed, .query asked completed ∉ s.issued) ∧
    ∀ completed fetched, .query completed fetched ∉ s.executed
  | _ => True

/-- A statement on its way: no write was started after a query, or complete before it was. -/
def IssuedBy (started : ℕ) : IssuedStatement → Prop
  | .write number _ => number ≤ started
  | .query asked completed => asked = started ∧ ∀ number ∈ completed, number ≤ asked

def ExecutedBy (started : ℕ) : ExecutedStatement → Prop
  | .write number => number ≤ started
  | .query completed fetched => fetched.asked = started ∧ ∀ number ∈ completed, number ≤ fetched.asked

/-- In a quiet run everything that was read was asked for after the last write had started. -/
structure QuietInv (s : SavedGamesLocal) : Prop where
  issued : ∀ statement ∈ s.issued, IssuedBy s.started statement
  executed : ∀ statement ∈ s.executed, ExecutedBy s.started statement
  completed : ∀ number ∈ s.completed, number ≤ s.started
  cache : ∀ fetched, s.listCache = some fetched → fetched.asked = s.started
  answers : ∀ answer ∈ s.answers, AskedInTime answer

theorem quietInv_new : QuietInv {} where
  issued := fun _ h => absurd h List.not_mem_nil
  executed := fun _ h => absurd h List.not_mem_nil
  completed := fun _ h => absurd h List.not_mem_nil
  cache := nofun
  answers := fun _ h => absurd h List.not_mem_nil

theorem QuietInv.startWrite (h : s.QuietInv) (write : GameWrite) (hquiet : s.Quiet (.write write)) :
    (s.startWrite write).QuietInv := by
  refine ⟨fun statement hmem => ?_, fun statement hmem => ?_, fun number hmem => ?_, nofun,
    h.answers⟩
  · rcases List.mem_append.mp hmem with hold | hnew
    · cases statement with
      | write number w =>
        have hle : number ≤ s.started := h.issued _ hold
        show number ≤ s.started + 1
        omega
      | query asked completed => exact absurd hold (hquiet.1 asked completed)
    · rw [List.mem_singleton.mp hnew]
      exact le_refl (s.started + 1)
  · cases statement with
    | write number =>
      have hle : number ≤ s.started := h.executed _ hmem
      show number ≤ s.started + 1
      omega
    | query completed fetched => exact absurd hmem (hquiet.2 completed fetched)
  · have hle := h.completed number hmem
    show number ≤ s.started + 1
    omega

theorem QuietInv.startList (h : s.QuietInv) : s.startList.QuietInv := by
  unfold SavedGamesLocal.startList
  split
  · rename_i fetched hcache
    refine ⟨h.issued, h.executed, h.completed, h.cache, List.forall_mem_append.mpr ⟨h.answers, ?_⟩⟩
    rw [List.forall_mem_singleton]
    intro number hnumber
    show number ≤ fetched.asked
    rw [h.cache fetched hcache]
    exact h.completed number hnumber
  · refine ⟨List.forall_mem_append.mpr ⟨h.issued, ?_⟩, h.executed, h.completed, h.cache, h.answers⟩
    exact List.forall_mem_singleton.mpr ⟨rfl, h.completed⟩

theorem QuietInv.execute (h : s.QuietInv) {statement : IssuedStatement}
    {issued : List IssuedStatement} (hissued : s.issued = statement :: issued) :
    ({ s with issued }.execute decode statement).QuietInv := by
  have hhead : IssuedBy s.started statement :=
    h.issued statement (by rw [hissued]; exact List.mem_cons_self)
  have hrest : ∀ statement' ∈ issued, IssuedBy s.started statement' :=
    fun statement' hmem => h.issued statement' (by rw [hissued]; exact List.mem_cons_of_mem _ hmem)
  -- what was issued is now executed, with the same numbers
  cases statement with
  | write number write =>
    refine ⟨hrest, List.forall_mem_append.mpr ⟨h.executed, ?_⟩, h.completed, h.cache, h.answers⟩
    exact List.forall_mem_singleton.mpr hhead
  | query asked completed =>
    refine ⟨hrest, List.forall_mem_append.mpr ⟨h.executed, ?_⟩, h.completed, h.cache, h.answers⟩
    exact List.forall_mem_singleton.mpr hhead

theorem QuietInv.resume (h : s.QuietInv) {i : ℕ} {statement : ExecutedStatement}
    (hi : s.executed[i]? = some statement) :
    ({ s with executed := s.executed.eraseIdx i }.resume statement).QuietInv := by
  have hthis := h.executed statement (List.mem_of_getElem? hi)
  have hrest : ∀ statement' ∈ s.executed.eraseIdx i, ExecutedBy s.started statement' :=
    fun statement' hmem => h.executed statement' (List.mem_of_mem_eraseIdx hmem)
  cases statement with
  | write number =>
    refine ⟨h.issued, hrest, List.forall_mem_append.mpr ⟨h.completed, ?_⟩, h.cache, h.answers⟩
    exact List.forall_mem_singleton.mpr hthis
  | query completed fetched =>
    refine ⟨h.issued, hrest, h.completed, fun f hf => ?_,
      List.forall_mem_append.mpr ⟨h.answers, ?_⟩⟩
    · obtain rfl := Option.some.inj hf
      exact hthis.1
    · exact List.forall_mem_singleton.mpr hthis.2

theorem QuietInv.step (h : s.QuietInv) (hquiet : s.Quiet e) : (s.step decode e).QuietInv := by
  cases e with
  | write write => exact h.startWrite write hquiet
  | listGames => exact h.startList
  | execute =>
    simp only [SavedGamesLocal.step]
    split
    · exact h
    · rename_i hissued
      exact h.execute hissued
  | resume i =>
    simp only [SavedGamesLocal.step]
    split
    · exact h
    · rename_i hi
      exact h.resume hi

/-- In every interleaving, a list that a call of `listGames` has returned reflects the writes that
were complete when the call started exactly if the query that it comes from, its own or that of the
call that filled the cache, was issued after these writes had been started. In particular all lists
do if no write starts while a query is on its way. -/
theorem list_reflects_iff (decode : GameRow → Option GameSummary) (events : List SavedGamesEvent) :
    (∀ answer ∈ (events.foldl (step decode) {}).answers,
      Reflects decode (events.foldl (step decode) {}).log answer ↔ AskedInTime answer) ∧
    (Machine.Along (step decode) Quiet {} events →
      ∀ answer ∈ (events.foldl (step decode) {}).answers,
        Reflects decode (events.foldl (step decode) {}).log answer) := by
  have hinv : (events.foldl (step decode) {}).Inv decode :=
    Machine.foldl_invariant (fun _ e hs => hs.step e) (inv_new decode)
  have hiff : ∀ answer ∈ (events.foldl (step decode) {}).answers,
      (Reflects decode (events.foldl (step decode) {}).log answer ↔ AskedInTime answer) := by
    intro answer hmem
    have hshows := hinv.answers answer hmem
    unfold Reflects AskedInTime
    rw [and_iff_right hshows.games, hshows.asked]
  refine ⟨hiff, fun hquiet answer hmem => (hiff answer hmem).mpr ?_⟩
  have hqinv : (events.foldl (step decode) {}).QuietInv :=
    Machine.foldl_along (fun _ _ hs he => hs.step he) hquiet quietInv_new
  exact hqinv.answers answer hmem

end

/-- A list is asked for, a game is saved while the query is on its way, and when both calls have
returned the list does not show the game. -/
theorem saved_game_not_listed :
    let row : GameRow := { id := "1", timestamp := "2026-01-01", payload := "" }
    let shown := fun r : GameRow => some (GameSummary.mk r.id 0 "" "" "" "" "" 0 none none)
    let s := List.foldl (step shown) {} [.listGames, .write (.saveGame row), .execute, .execute,
      .resume 1, .resume 0, .listGames]
    s.rows = [row] ∧ s.completed = [1] ∧
      s.answers.map (fun answer => (answer.completed, answer.fetched.games)) =
        [([], []), ([1], [])] := by
  decide +kernel

end SavedGamesLocal

end ChessRecast.App
