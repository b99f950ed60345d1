import Steel.Chunk.ChunkScheduler
import Steel.Chunk.HeightmapRuns
import Steel.Chunk.PaletteNetwork
import Steel.Chunk.RandomTickSections
import Steel.Chunk.StatusWork
import Steel.Chunk.TimedChunkTickets
import Steel.ChunkSaver.RegionStore
import Steel.ChunkSaver.SectionRoundTrip
import Steel.ChunkSaver.SpaceReuse
import Steel.Command.CommandAccounting
import Steel.Command.CommandInterpreter
import Steel.Command.CommandOrder
import Steel.Command.CommandSearch
import Steel.Command.CommandVisibility
import Steel.Command.SubcommandAccess
import Steel.Command.SuggestionOrder
import Steel.Entity.EntitySaving
import Steel.Entity.TickProgress
import Steel.Fluid.Equilibrium
import Steel.Inventory.BundleWeight
import Steel.Inventory.Concurrency
import Steel.Inventory.Container
import Steel.Inventory.MenuConvergence
import Steel.Light.BlockLight
import Steel.Light.LightUpdateRuns
import Steel.Light.SkyRuns
import Steel.Light.SkySourceRuns
import Steel.Nbt.NbtHash
import Steel.Nbt.NbtPathSet
import Steel.Nbt.SnbtBounds
import Steel.Permission.GroupInheritance
import Steel.Permission.PermissionGroups
import Steel.Permission.PermissionLogic
import Steel.Permission.RuleExpression
import Steel.Player.FileRecovery
import Steel.Player.MessageRejection
import Steel.Player.SignatureCache
import Steel.Protocol.PacketRoundTrip
import Steel.Protocol.ReaderSafety
import Steel.Protocol.StreamEncryptor
import Steel.Random.IntProvider
import Steel.Random.LegacyRandom
import Steel.Recipe.ShapedRecipe
import Steel.Recipe.ShapelessRecipe
import Steel.Redstone.WireNetwork
import Steel.Registry.CanonicalPatch
import Steel.Registry.StateBijection
import Steel.World.NeighborOrder
import Steel.World.PlayerAreaMap
import Steel.World.RunBatch
import Steel.World.TickRuns
import Steel.World.TickSaving
import Steel.World.TickerRuns
