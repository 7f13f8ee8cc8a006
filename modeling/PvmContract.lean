import PvmContract.Data.HeadTail
import PvmContract.Data.Run
import PvmContract.Abi.Encoding
import PvmContract.Abi.Indexed
import PvmContract.Types.Primitives
import PvmContract.Types.Sequences
import PvmContract.Macros.RoundTrip
import PvmContract.Macros.RoomLaws
import PvmContract.Macros.FastPath
import PvmContract.Macros.FailClosed
import PvmContract.Types.MisreadLaws
import PvmContract.Macros.DispatchLaws
import PvmContract.Storage.Layout
import PvmContract.Data.Window
import PvmContract.Storage.Lazy
import PvmContract.Storage.SlotChecks
import PvmContract.Storage.StaticType
import PvmContract.Storage.LazyStruct
import PvmContract.Storage.Component
import PvmContract.Storage.Elements
import PvmContract.Data.Address
import PvmContract.Storage.Keys
import PvmContract.Storage.Paths
import PvmContract.Storage.PathLaws
import PvmContract.Storage.Vec
import PvmContract.Storage.VecPlace
import PvmContract.Storage.VecLaws
import PvmContract.Storage.VecComponent
import PvmContract.Storage.Struct
import PvmContract.Storage.VecRuns
import PvmContract.Storage.SolStorage
import PvmContract.Storage.Dynamic
import PvmContract.Contract.Reentrancy
import PvmContract.Contract.Routing
import PvmContract.Contract.Calls
import PvmContract.Contract.ErrorLaws
import PvmContract.Contract.RevertMessage
import PvmContract.Contract.Events
import PvmContract.Contract.EventData
import PvmContract.Contract.EventTopics
import PvmContract.Num.Ruint
import PvmContract.Num.I256
import PvmContract.Num.I256Ops
import PvmContract.Num.I256Text
import PvmContract.Contract.Interface
import PvmContract.Contract.BuilderDsl
import PvmContract.Contract.BuilderLaws
import PvmContract.Contract.Output
import PvmContract.Contract.OutputLaws
import PvmContract.Storage.SlotArithmetic
import PvmContract.Memory.BumpAllocator
import PvmContract.Data.Fuel
import PvmContract.Sol.Syntax
import PvmContract.Sol.Resolve
import PvmContract.Data.Reach
import PvmContract.Sol.Expansion
import PvmContract.Scaffold.SnakeCase
import PvmContract.Scaffold.MethodNames
import PvmContract.Extrinsics.Decimal
import PvmContract.Extrinsics.Balance
import PvmContract.Extrinsics.BalanceLaws
import PvmContract.Extrinsics.BalanceText
import PvmContract.Data.Text
import PvmContract.Extrinsics.BalanceRoundTrip
import PvmContract.Cli.Descriptor
import PvmContract.Cli.DynSolType
import PvmContract.Cli.DynSolTypeLaws
import PvmContract.Cli.DescriptorNames
import PvmContract.Cli.SdkTypes
import PvmContract.Cli.ParseNames
import PvmContract.Cli.DescriptorRoundTrip
import PvmContract.Abi.HeadLayout
import PvmContract.Scaffold.ParamDynamic
import PvmContract.Macros.FromRustType
import PvmContract.AbiImport.Translation
import PvmContract.AbiImport.TranslationLaws
import PvmContract.AbiImport.Implementations
import PvmContract.Sol.TypeLayout
import PvmContract.Scaffold.ParamLayout
import PvmContract.AbiImport.LookupLaws
import PvmContract.AbiImport.SizeLaws
import PvmContract.AbiImport.Predicates
import PvmContract.Data.Prog
import PvmContract.Contract.Deployment
import PvmContract.Contract.DeploymentLaws
import PvmContract.Contract.DeploymentGuard
import PvmContract.Storage.Shell
import PvmContract.Storage.Sites
import PvmContract.Storage.ContractStorage
import PvmContract.Storage.Cells
import PvmContract.Token.MyToken
import PvmContract.Token.Ledger
import PvmContract.Token.TokenLaws
import PvmContract.Storage.LayoutEntries
import PvmContract.Storage.ContractLayout
import PvmContract.Macros.FastDispatch
