import GFLGO.Turns
import GFLGO.Location
import GFLGO.Allocation
import GFLGO.Usernames
import GFLGO.HalfWritten
import GFLGO.OneBattle
import GFLGO.Experience
import GFLGO.AccountMap
import GFLGO.AccountStore
import GFLGO.Sequential
import GFLGO.AccountRefinement
import GFLGO.Players
import GFLGO.Nearby
import GFLGO.Spawns
import GFLGO.Refreshes
import GFLGO.Logout
import GFLGO.Navigation
import GFLGO.Enemies
import GFLGO.Removal
import GFLGO.EnemyHistory
import GFLGO.SpawnCap
import GFLGO.SpawnArea
import GFLGO.SpawnRace
import GFLGO.CompareSet
import GFLGO.PasswordRace
import GFLGO.PairedWrites
import GFLGO.Positions
import GFLGO.Interleaving
import GFLGO.Independence
import GFLGO.Buttons
import GFLGO.Duel
import GFLGO.Fight
import GFLGO.HealthBar
import GFLGO.Victory
import GFLGO.Identifiers
import GFLGO.SpawnView
import GFLGO.Chains
import GFLGO.Forms
import GFLGO.CompoundWrite
import GFLGO.DictionaryRuns
import GFLGO.EventCaches
import GFLGO.FPath
import GFLGO.SnapshotNode
import GFLGO.ClientCaches
import GFLGO.Credentials
import GFLGO.RandomDraws
import GFLGO.Crashes
import GFLGO.Rest
