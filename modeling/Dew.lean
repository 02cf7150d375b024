import Dew.AccessControl
import Dew.Admission
import Dew.BlockListing
import Dew.BlockRange
import Dew.BlockRefusal
import Dew.Certificates
import Dew.ChainIndex
import Dew.ChainQueries
import Dew.ChainRecords
import Dew.ChainRuns
import Dew.Cluster
import Dew.DomainSeparation
import Dew.EpochSet
import Dew.EvidenceWire
import Dew.FillSplit
import Dew.GenesisOrder
import Dew.Gossip
import Dew.HeaderRules
import Dew.Linked
import Dew.Mempool
import Dew.NativeExecutor
import Dew.OpenIndex
import Dew.Precompiles
import Dew.PrefixScan
import Dew.ProposerShare
import Dew.Quorum
import Dew.QuoteExact
import Dew.Ranking
import Dew.Reopening
import Dew.Rotation
import Dew.SecureLink
import Dew.SendingRuns
import Dew.SlotNames
import Dew.StakeSolvency
import Dew.StateTree
import Dew.StaticWrites
import Dew.StorageRefund
