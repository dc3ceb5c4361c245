import HetuCore.Iceberg.ExpressionConverterExact
import HetuCore.Predicate.TupleDomainSubtract
import HetuCore.Predicate.ExpandRanges
import HetuCore.Decimal.DecimalSumAggregation
import HetuCore.Decimal.DecimalAverageAggregation
import HetuCore.Decimal.GroupedLongDecimalCapture
import HetuCore.Buffer.ClientExchangeDelivery
import HetuCore.Buffer.MarkerCut
import HetuCore.Snapshot.ResumeTimeline
import HetuCore.Snapshot.ComponentCounting
import HetuCore.Snapshot.TaskSnapshotManager
import HetuCore.Snapshot.SnapshotOrdinal
import HetuCore.Snapshot.SplitHistory
import HetuCore.Snapshot.SnapshotCut
import HetuCore.Orc.LongStreamV1RoundTrip
import HetuCore.Orc.BooleanStreamRoundTrip
import HetuCore.Relation.MinimalNormalForm
import HetuCore.Relation.DomainToPredicateLaws
import HetuCore.HeuristicIndex.StripeFilterLaws
import HetuCore.HeuristicIndex.InvertedFilterSound
import HetuCore.DynamicFiltering.PartitionFilterLaws
import HetuCore.DynamicFiltering.RowFilterSound
import HetuCore.DynamicFiltering.OrcPredicateLaws
import HetuCore.DynamicFiltering.FilterSupplierLaws
import HetuCore.DynamicFiltering.FiltersCollectorSound
import HetuCore.Hive.OrcDeletedRowsSound
import HetuCore.Join.PagesHashSound
import HetuCore.Grouping.GroupByHashSound
import HetuCore.Grouping.GroupBySortSound
import HetuCore.DynamicFiltering.DynamicFilterServiceSound
import HetuCore.Window.WindowPartitionLaws
import HetuCore.Window.WindowRankings
import HetuCore.Snapshot.MarkerTimeline
import HetuCore.TableScan.ReuseExchange
