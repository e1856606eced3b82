import ChessRecast.Bridge.FriendlyFire
import ChessRecast.Bridge.Hash
import ChessRecast.Bridge.QueenResults
import ChessRecast.App.NativeTheorems
import ChessRecast.Bridge.Succession
import ChessRecast.Bridge.KingsBattle
import ChessRecast.Bridge.Queens
import ChessRecast.App.Repetition
import ChessRecast.App.Reordering
import ChessRecast.P2P.SessionId
import ChessRecast.P2P.Resync
import ChessRecast.P2P.CborCorrect
import ChessRecast.P2P.FrameTheorems
import ChessRecast.Engine.FenSafety
import ChessRecast.Bridge.FenCodec
import ChessRecast.Bridge.Truce
import ChessRecast.P2P.FlagFall
import ChessRecast.P2P.LateJoin
import ChessRecast.P2P.AeadChannel
import ChessRecast.Signaling.Auth
import ChessRecast.Signaling.Invites
import ChessRecast.Signaling.Turn
import ChessRecast.Signaling.KillSwitch
import ChessRecast.Signaling.Spectators
import ChessRecast.P2P.MultiDevice
import ChessRecast.Signaling.Dsar
import ChessRecast.App.SavedGames
import ChessRecast.Engine.Captures
import ChessRecast.Signaling.Pow
import ChessRecast.P2P.Capacity
import ChessRecast.P2P.RecoveryCode
import ChessRecast.P2P.WrappedBlob
import ChessRecast.P2P.Hashes
import ChessRecast.P2P.Session
import ChessRecast.Engine.History
import ChessRecast.Engine.Candidates
import ChessRecast.Engine.AttackCaptures
import ChessRecast.Signaling.Accounts
import ChessRecast.P2P.RemoteConfig
import ChessRecast.P2P.Chat
import ChessRecast.P2P.Tournament
