import CryptDough.Replicated3PCConversion
import CryptDough.AdderChoice
import CryptDough.LogicalNot
import CryptDough.GroupBy
import CryptDough.KeyedWindows
import CryptDough.PermutationBudget
import CryptDough.BeaverTriples
import CryptDough.Fantastic4PCConversion
import CryptDough.ObliviousPermutation
import CryptDough.CheckedOpening
import CryptDough.EdaBitsDivision
import CryptDough.Custom4PCOpening
import CryptDough.JointCoin
import CryptDough.RingWait
import CryptDough.CartesianJoin
import CryptDough.PRGSynchronisation
import CryptDough.ReshareRouting
import CryptDough.PermutationConversions
import CryptDough.ConversionProtocols
import CryptDough.Popcount
import CryptDough.NetworkAggregation
import CryptDough.Comparison
import CryptDough.DivisionByConstant
import CryptDough.QuicksortRounds
import CryptDough.NetworkTableSort
import CryptDough.FieldRandomness
import CryptDough.FisherYates
import CryptDough.LocalShuffle
import CryptDough.PrivateDivision
import CryptDough.CorrelatedTransfers
import CryptDough.ObliviousLinearEvaluation
import CryptDough.OLEModPrime
import CryptDough.ChineseRemainders
import CryptDough.OLEByRemainders
import CryptDough.BitCodecs
import CryptDough.BitonicNetwork
import CryptDough.BitonicSort
import CryptDough.OddEvenNetwork
import CryptDough.MergeNetworks
import CryptDough.FixedPointTruncation
import CryptDough.PublicFraction
import CryptDough.MappedVector
import CryptDough.OptionLoop
import CryptDough.AccessPatterns
import CryptDough.RepresentationInvariant
import CryptDough.TreePrefixSum
import CryptDough.AveragePooling
import CryptDough.MatrixProduct
import CryptDough.Convolution
import CryptDough.BitDecomposition
import CryptDough.PooledGenerator
import CryptDough.HashDomains
import CryptDough.DecimalText
import CryptDough.ShareFiles
import CryptDough.MostCommon
import CryptDough.JoinedTables
import CryptDough.RuntimeCalls
import CryptDough.QueryPrograms
import CryptDough.OrderedQueries
import CryptDough.CountingQueries
import CryptDough.FinalizedTables
