import KeyChain.Bytes
import KeyChain.OrderedMap
import KeyChain.Base64
import KeyChain.Algorithm
import KeyChain.KeyId
import KeyChain.Path
import KeyChain.Error
import KeyChain.Random
import KeyChain.Crypto.Mixing
import KeyChain.Crypto.Sha256
import KeyChain.Crypto.Hkdf
import KeyChain.Crypto.ChaCha20
import KeyChain.Crypto.Poly1305
import KeyChain.Crypto.XChaCha20Poly1305
import KeyChain.Crypto.Blake2b
import KeyChain.Crypto.Blake3
import KeyChain.Crypto.Argon2id
import KeyChain.Key
import KeyChain.Key.Params
import KeyChain.Key.Derive
import KeyChain.Link
import KeyChain.Json
import KeyChain.Json.Text
import KeyChain.Failure
import KeyChain.Program
import KeyChain.Disk
import KeyChain.Machine
import KeyChain.Store
import KeyChain.Store.Document
import KeyChain.Store.File
import KeyChain.ChainMode
import KeyChain.Chain
import KeyChain.Chain.Edit
import KeyChain.Decoy
import KeyChain.Root
import KeyChain.Keyring
import KeyChain.Keyring.Entry
import KeyChain.Keyring.Vault
import KeyChain.Toml
import KeyChain.Toml.Text
import KeyChain.Toml.Quoted
import KeyChain.Config
import KeyChain.Command.Arguments
import KeyChain.Command
import KeyChain.Command.Find
import KeyChain.Command.Run
import KeyChain.Main
import KeyChain.Proofs.Walk
import KeyChain.Proofs.LinkCodec
import KeyChain.Proofs.AddLink
import KeyChain.Proofs.Deeds
import KeyChain.Proofs.Loop
import KeyChain.Proofs.Spelling
import KeyChain.Proofs.JsonText
import KeyChain.Proofs.JsonRecords
import KeyChain.Proofs.StoreText
import KeyChain.Proofs.RootFiles
import KeyChain.Proofs.StoreRuns
import KeyChain.Proofs.RootCalls
import KeyChain.Proofs.LoopCalls
import KeyChain.Proofs.Canonical
import KeyChain.Proofs.StoreRoundTrip
import KeyChain.Proofs.Sessions
import KeyChain.Proofs.DeleteCalls
import KeyChain.Proofs.UndoneLinks
import KeyChain.Proofs.EntryText
import KeyChain.Proofs.VaultRuns
import KeyChain.Proofs.WriteOnce
import KeyChain.Proofs.CallAtomicity
import KeyChain.Proofs.DecoyRuns
import KeyChain.Proofs.UnbiasedDraws
import KeyChain.Proofs.Handles
import KeyChain.Proofs.FlushRuns
import KeyChain.Proofs.Locality
import KeyChain.Proofs.FileLayout
import KeyChain.Proofs.Identifiers
import KeyChain.Proofs.EntryNames
import KeyChain.Proofs.StoreFormat
import KeyChain.Proofs.IdentifierTexts
import KeyChain.Proofs.LinkedKeys
import KeyChain.Proofs.SharedTails
import KeyChain.Proofs.StaleChains
import KeyChain.Proofs.LinkOrder
import KeyChain.Proofs.Requests
import KeyChain.Proofs.Footprints
import KeyChain.Proofs.Blame
import KeyChain.Proofs.Actions
import KeyChain.Proofs.Refusals
import KeyChain.Proofs.AddedKeys
import KeyChain.Proofs.Markers
import KeyChain.Proofs.FoundPlaces
import KeyChain.Proofs.DerivedKeys
import KeyChain.Proofs.BoundDirectories
import KeyChain.Proofs.NearestKeys
import KeyChain.Proofs.QuotedText
import KeyChain.Proofs.TomlText
import KeyChain.Proofs.TomlTables
import KeyChain.Proofs.ConfigText
import KeyChain.Proofs.KeyringRuns
import KeyChain.Proofs.InstalledChains
import KeyChain.Proofs.RemovedChains
