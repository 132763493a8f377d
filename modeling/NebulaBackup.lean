import NebulaBackup.SubTree
import NebulaBackup.ObjectIds
import NebulaBackup.PackReuse
import NebulaBackup.Chunking
import NebulaBackup.SnapshotUpdate
import NebulaBackup.Authentication
import NebulaBackup.PackOffsets
import NebulaBackup.TwoClients
import NebulaBackup.Base32Decode
import NebulaBackup.Unlock
import NebulaBackup.KeyLayout
import NebulaBackup.Lookup
import NebulaBackup.LoadChecks
import NebulaBackup.SSHDataStore
import NebulaBackup.RestoreTree
import NebulaBackup.StoredObjects
import NebulaBackup.Listing
import NebulaBackup.SnapshotReload
import NebulaBackup.Terminal
import NebulaBackup.DryRun
import NebulaBackup.AuthenticRestore
